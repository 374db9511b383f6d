import LoxLang.Proofs.Nesting.Interchange
import LoxLang.Proofs.Tree.Equality

namespace LoxLang

open Node

/-- A statement that declares nothing, and the same in a block of its own. -/
def Braced (j k : Node) : Prop :=
  ∃ t, j.uncounted = .stmt t ∧ k.uncounted = .stmt (.block [t]) ∧ t.declares = []

theorem Braced.cases {j k : Node} (h : Braced j k) : ∃ t u, j = .stmt t ∧ k = .stmt (.block [u]) ∧
    SameText (.stmt t) (.stmt u) ∧ t.declares = [] := by
  obtain ⟨_, hj, hk, hdeclares⟩ := h
  obtain ⟨t, rfl, rfl⟩ := Node.uncounted_eq_stmt hj
  obtain ⟨_, rfl, hblock⟩ := Node.uncounted_eq_stmt hk
  obtain ⟨us, rfl, hus⟩ := Stmt.uncounted_eq_block hblock
  obtain ⟨u, rfl, hu⟩ := List.map_eq_singleton_iff.1 hus
  exact ⟨t, u, rfl, rfl, congrArg Node.stmt hu, Stmt.declares_uncounted t ▸ hdeclares⟩

theorem Braced.not_sameText {j k : Node} (h : Braced j k) : ¬ SameText j k := by
  obtain ⟨t, hj, hk, -⟩ := h
  intro hsame
  have hsize := congrArg sizeOf (Node.stmt.inj (hk.symm.trans (hsame.trans hj)))
  simp at hsize
  omega

theorem braced_rewriting : Rewriting Braced where
  statements j k h := by
    obtain ⟨t, u, rfl, rfl, -, hdeclares⟩ := h.cases
    exact ⟨t, .block [u], rfl, rfl, hdeclares.symm⟩
  congr h hj hk := by
    obtain ⟨t, ht, hu, hdeclares⟩ := h
    exact ⟨t, hj.trans ht, hk.trans hu, hdeclares⟩
  allowed {Γ x x'} h hx hnew := by
    obtain ⟨Δ, j⟩ := x
    obtain ⟨Δ', k⟩ := x'
    obtain ⟨t, u, rfl, rfl, hsame, hdeclares⟩ := hnew.cases
    refine (throughout_iff _ _).2 ⟨⟨trivial, trivial⟩, fun y hy => ?_⟩
    obtain rfl := List.mem_singleton.1 hy
    have hΔ : Δ.Settled := h.settled t rfl
    exact Related.throughout_same (.branch (h.beside.enter_further hΔ _) (.inl hsame) hΔ hdeclares) hx

theorem Evaluator.sequence_singleton (m : Evaluator) (t : Stmt) : m.sequence [t] = m.exec t := by
  funext s
  simp only [sequence]
  match hx : m.exec t s with
  | .ok o s' =>
    rw [Stopping.bind_ok hx]
    cases o <;> rfl
  | .error e s' => rw [Stopping.bind_error hx]

theorem execute_block_singleton (n : Nat) (t : Stmt) : execute .byDistance (n + 1) (.block [t]) = (do
    let chain ← Exec.pushFrame ⟨[]⟩ (← MonadState.get).chain
    Exec.within chain (execute .byDistance n t)) := by
  have hsingle := Evaluator.sequence_singleton (.within n) t
  simp only [Evaluator.within] at hsingle
  rw [← hsingle]
  rfl

theorem Enough.inner {side : Side} {n m : Nat} (h : Enough side (n + 1) (m + 1)) :
    side = .second ∧ m = 0 ∨ ∃ k, m = k + 1 ∧ Enough side n k := by
  cases m with
  | zero =>
    cases side with
    | first =>
      simp only [Enough] at h
      omega
    | second => exact .inl ⟨rfl, rfl⟩
  | succ k =>
    refine .inr ⟨k, rfl, ?_⟩
    cases side <;> simp only [Enough] at h ⊢ <;> omega

theorem braced_runs {side : Side} {n n' : Nat} {w : List Nat} {Γ : List Layer} {t t' : Stmt}
    (hp : Paired Braced Γ (.stmt t) (.stmt t')) (hbraced : Braced (.stmt t) (.stmt t'))
    (hn : Enough side (n + 1) n')
    (hbelow : ∀ m', Enough side n m' → braced_rewriting.pairing.Lockstep side (.within n) (.within m')) :
    braced_rewriting.pairing.Runs side w Γ braced_rewriting.pairing.Outcomes (execute .byDistance (n + 1) t)
      (execute .byDistance n' t') := by
  obtain ⟨_, u, ht, ht', hsame, hdeclares⟩ := hbraced.cases
  cases ht
  cases ht'
  obtain ⟨Δ, Δ', hj, hj', hrelated⟩ := hp
  have hΔ : Δ.Settled := hrelated.settled t rfl
  have hu : Abides true (Δ'.enter (.block [u]) ⟨[]⟩) (.stmt u) :=
    ((abides_iff _ _ _).1 hj').2 (Δ'.enter (.block [u]) ⟨[]⟩, .stmt u) (List.mem_singleton.2 rfl)
  have hinner : Paired Braced (.further :: Γ) (.stmt t) (.stmt u) :=
    ⟨Δ, _, hj, hu, .branch (hrelated.beside.enter_further hΔ _) (.inl hsame) hΔ hdeclares⟩
  have hlikened := (Paired.step braced_rewriting hinner).resolve_left fun h => h.not_sameText hsame
  obtain (⟨-, h⟩ | ⟨hside, rfl⟩) | ⟨_, m, hm, rfl, -⟩ := hn.cases
  · cases h
  · exact .second hside
  rw [execute_block_singleton]
  apply Pairing.Runs.further
  obtain ⟨hside, rfl⟩ | ⟨k, rfl, hk⟩ := hn.inner
  · exact .second hside
  · exact (hbelow k hk).execRule_runs hlikened

/-- Braces around a statement that is no declaration do not matter: with them the program is accepted, and the two
may stand for each other in any session. -/
theorem braces_interchangeable {source : String} {program : List Stmt} {address : List Nat} {t : Stmt}
    (hread : (parse (Token.scan source).1).1 = some program) (hreports : (bindProgram program).reports = [])
    (ht : nodeAt program address = some (.stmt t)) (hdeclares : t.declares = []) :
    let text := replaceAt program address (.stmt (.block [t]))
    (bindProgram text).reports = [] ∧ (∃ bound', (bindProgram text).program = .ok bound') ∧
      ∀ clock commands, Interchangeable (Session.after commands { store := { clock := clock } }) program text := by
  have hbraced : Braced (.stmt t) (.stmt (.block [t])) :=
    ⟨t.uncounted, rfl, by simp [Node.uncounted, Stmt.uncounted, uncountedStmts_eq],
      (Stmt.declares_uncounted t).trans hdeclares⟩
  exact braced_rewriting.interchangeable braced_runs (fun t ht => (parse_scan_shaped hread t ht).plain) hreports
    (replaceAt_recast (fun _ _ => braced_rewriting.sameKind) ht (.here hbraced))

section kept

def keptText : String := "\x7b var a; if (true) a = fun () \x7b return a; \x7d; print a; \x7d"

def keptBranch : Stmt :=
  let a : Token := ⟨.identifier, "a", 1, none⟩
  .expression (.assign a none (.function ⟨[], [.ret ⟨.kwReturn, "return", 1, none⟩ (some (.ref a none))]⟩))

def keptTree (branch : Stmt) : List Stmt :=
  let a : Token := ⟨.identifier, "a", 1, none⟩
  [.block [.varDecl a none, .ifThen (.literal (.bool true)) branch none, .print (.ref a none)]]

theorem keptText_braced :
    let program := keptTree keptBranch
    let text := keptTree (.block [keptBranch])
    (parse (Token.scan keptText).1).1 = some program ∧ (bindProgram program).reports = [] ∧
      nodeAt program [1, 1, 0] = some (.stmt keptBranch) ∧ keptBranch.declares = [] ∧
      replaceAt program [1, 1, 0] (.stmt (.block [keptBranch])) = text ∧ (bindProgram text).reports = [] ∧
      ∀ clock commands, Interchangeable (Session.after commands { store := { clock := clock } }) program text := by
  intro program text
  have hread : (parse (Token.scan keptText).1).1 = some program := by decide +kernel
  have hreports : (bindProgram program).reports = [] := rfl
  have hbraces := @braces_interchangeable _ _ [1, 1, 0] keptBranch hread hreports rfl rfl
  exact ⟨hread, hreports, rfl, rfl, rfl, hbraces.1, hbraces.2.2⟩

end kept

end LoxLang
