import LoxLang.Proofs.Nesting.Lockstep
import LoxLang.Proofs.Renaming.Unseen
import LoxLang.Proofs.Sessions.Outcome

namespace LoxLang

theorem Widened.itself (l : List (Bindings Bool)) : Widened (l.map fun _ => .shared) l l := by
  induction l with
  | nil => exact .nil
  | cons b _ ih => exact .shared b ih

namespace Context

/-- The scopes around a place, all of them of both programs. -/
def layers (Δ : Context) : List Layer := Δ.labels.map fun _ => .shared

theorem beside_itself (Δ : Context) : Beside Δ.layers Δ Δ := by
  have hlayers : Δ.layers = Δ.seen.map fun _ => .shared := by
    simp [layers, labels, scopes, seen, Function.comp_def]
  exact ⟨rfl, hlayers ▸ .itself Δ.seen⟩

end Context

theorem Paired.itself {new : Node → Node → Prop} {Δ : Context} {f : Lambda} (h : Resolved Δ (.lambda f)) :
    Paired new Δ.layers (.lambda f) (.lambda f) :=
  ⟨Δ, Δ, h, ((resolved_iff_abides _ _).1 h).2, .lambda Δ.beside_itself (.inl rfl)⟩

theorem Rewriting.sameKind {new : Node → Node → Prop} (hnew : Rewriting new) {j k : Node} (h : new j k) :
    j.SameKind k := by
  obtain ⟨t, u, rfl, rfl, -⟩ := hnew.statements _ _ h
  trivial

def Rewriting.pairing {new : Node → Node → Prop} (hnew : Rewriting new) : Pairing where
  pairs := Paired new
  special := new
  step := Paired.step hnew
  statements h := by
    obtain ⟨t, u, rfl, rfl, -⟩ := hnew.statements _ _ h
    exact ⟨t, u, rfl, rfl⟩

namespace Pairing

variable {P : Pairing} {C : Coupling} {w : List C.Label}

theorem chains_itself {c : Chain} {Γ : List C.Label} (h : C.Chains w c Γ) :
    Chains (List.range w.length) (Γ.map fun _ => .shared) c c := by
  have hrange : ∀ {f : Nat} {ℓ : C.Label}, w[f]? = some ℓ → (List.range w.length)[f]? = some f := by
    intro f ℓ hf
    exact List.getElem?_range (List.getElem?_eq_some_iff.1 hf).1
  induction h with
  | root htop => exact .root (hrange htop)
  | link hf _ ih => exact .shared (hrange hf) ih

variable (hC : C.Identical)
  (hpairs : ∀ {Γ f}, C.pairs Γ (.lambda f) (.lambda f) → P.pairs (Γ.map fun _ => .shared) (.lambda f) (.lambda f))

include hC hpairs

theorem routines_itself {inner : List C.Label} {r r' : Routine} (h : C.Routines w inner r r') :
    P.Routines (List.range w.length) (inner.map fun _ => .shared) r r' := by
  obtain rfl := h.eq hC
  obtain ⟨Γ, hc, hp⟩ := h.paired
  refine ⟨rfl, rfl, _, chains_itself hc, ?_, fun _ hhead => ?_⟩
  · rw [← List.map_append]
    exact hpairs hp
  · rw [← List.map_append, List.head?_map] at hhead
    obtain ⟨_, -, hshared⟩ := Option.map_eq_some_iff.1 hhead
    cases hshared

theorem classes_itself {c c' : Class} (h : C.Classes w c c') : P.Classes (List.range w.length) c c' :=
  ⟨h.name, h.methods.mono fun _ _ ⟨_, _, hr⟩ => routines_itself hC hpairs hr⟩

theorem values_itself {a a' : Value} (h : C.Values w a a') : P.Values (List.range w.length) a a' := by
  cases h with
  | nil => exact .nil
  | bool b => exact .bool b
  | number x => exact .number x
  | text t => exact .text t
  | list id => exact .list id
  | native n => exact .native n
  | function id h => exact .function id (routines_itself hC hpairs h)
  | classDef id h => exact .classDef id (classes_itself hC hpairs h)
  | object id h => exact .object id (classes_itself hC hpairs h)

theorem contents_itself {ℓ : C.Label} {b b' : Bindings Value} (h : C.Contents w ℓ b b') :
    P.Contents (List.range w.length) b b' :=
  List.Forall₂.imp (fun _ _ he => ⟨he.1.trans (hC.rename _ _), trivial, values_itself hC hpairs he.2.2⟩) h

theorem stores_itself {s : Store} (h : C.Stores w s s) : P.Stores (List.range w.length) s s where
  top := List.getElem?_range (List.getElem?_eq_some_iff.1 h.top).1
  size := by rw [List.length_range, h.size]
  size' f hf := by rw [h.size]; exact List.mem_range.1 hf
  nodup := List.nodup_range
  frame f f' hf := by
    obtain ⟨hlt, hf⟩ := List.getElem?_eq_some_iff.1 hf
    rw [List.getElem_range] at hf
    subst hf
    rw [List.length_range] at hlt
    exact contents_itself hC hpairs (h.frame f _ (List.getElem?_eq_getElem hlt))
  lists := h.lists.mono fun _ _ hxs => hxs.mono fun _ _ => values_itself hC hpairs
  objects := h.objects.mono fun _ _ hb => hb.mono fun _ _ => values_itself hC hpairs
  fresh := rfl
  printed := rfl
  clock := rfl

end Pairing

theorem Session.stores_itself {new : Node → Node → Prop} (hnew : Rewriting new) (clock : Clock)
    (commands : List Command) :
    let s := (Session.after commands { store := { clock := clock } }).store
    ∃ w, hnew.pairing.Stores w s s ∧ Chains w [] s.chain s.chain := by
  intro s
  have hresolved := Session.programs_resolved commands { store := { clock := clock } }
  obtain ⟨w, hrest, -⟩ := Session.new_in_step clock commands
  have hstores : hnew.pairing.Stores (List.range w.length) s s := by
    refine Pairing.stores_itself (stepCoupling_identical hresolved) ?_ hrest.related
    rintro Γ f ⟨-, program, hprogram, Δ, ⟨x, hx, hreach⟩, rfl⟩
    exact Paired.itself fun y hy => hresolved program hprogram x hx y (hreach.trans hy)
  exact ⟨_, hstores, hrest.chain ▸ .root hstores.top⟩

namespace Pairing

variable {P : Pairing} {side : Side} {w : List Nat}

theorem Stores.globalTexts_eq {s s' : Store} (h : P.Stores w s s') (j j' : Journal) :
    Session.globalTexts ⟨j', s'⟩ = Session.globalTexts ⟨j, s⟩ :=
  (Values.lookalike P w).globalTexts_eq ((h.frame 0 0 h.top).imp fun _ _ he => ⟨he.1, he.2.2⟩) h.lists j j'

/-- Of runs that agree neither can be told from the other, if the one that its bound may cut short ends. -/
theorem Agree.unseen {n n' : Nat} {ss ss' : List Stmt} {s : Session} {c c' : Chain} {post : Unit → Unit → Prop}
    (h : P.Agree side w c c' post (runProgram .byDistance n ss s.store) (runProgram .byDistance n' ss' s.store))
    (hfirst : side = .first → (s.execute n ss).1 ≠ .endless)
    (hsecond : side = .second → (s.execute n' ss').1 ≠ .endless) :
    Unseen (s.execute n ss) (s.execute n' ss') := by
  unfold Session.execute at hfirst hsecond ⊢
  generalize runProgram .byDistance n ss s.store = x at h hfirst ⊢
  generalize runProgram .byDistance n' ss' s.store = x' at h hsecond ⊢
  cases h with
  | ok _ hs _ => exact ⟨rfl, rfl, hs.printed, hs.globalTexts_eq _ _⟩
  | @error e _ _ hs _ => cases e <;> exact ⟨rfl, rfl, hs.printed, hs.globalTexts_eq _ _⟩
  | first hside => exact absurd rfl (hfirst hside)
  | second hside => exact absurd rfl (hsecond hside)

end Pairing

/-- From this session on, two programs end alike whenever one of them ends and the bound on the other is no
tighter than is needed: the second may need twice that of the first, and the first no more than the second. -/
structure Interchangeable (s : Session) (program program' : List Stmt) : Prop where
  forth : ∀ n, (s.bindAndExecute n false program).1 ≠ .endless → ∀ n', 2 * n ≤ n' →
    Unseen (s.bindAndExecute n false program) (s.bindAndExecute n' false program')
  back : ∀ n', (s.bindAndExecute n' false program').1 ≠ .endless → ∀ n, n' ≤ n →
    Unseen (s.bindAndExecute n false program) (s.bindAndExecute n' false program')

theorem Session.asRun_plain (ss : List Stmt) : asRun false ss = ss := by
  obtain _ | ⟨t, _ | ⟨u, us⟩⟩ := ss <;> rfl

theorem Session.bindAndExecute_of_accepted {s : Session} {ss bound : List Stmt} (n : Nat)
    (hreports : (bindProgram ss).reports = []) (hbound : (bindProgram ss).program = .ok bound) :
    s.bindAndExecute n false ss = if s.journal.hadError then (.finished, s) else s.execute n bound := by
  have hsame : s.report [] = s := rfl
  by_cases herror : s.journal.hadError = true
  · rw [if_pos herror]
    unfold bindAndExecute
    simp only [hbound, hreports, hsame, herror, if_true]
  · rw [if_neg herror, bindAndExecute_of_ok (by rw [hreports, hsame]; simpa using herror) hbound, hreports, hsame,
      asRun_plain]

/-- Two programs may stand for each other if one is the other with a statement rewritten by a rule under which
special statements run alike. -/
theorem Rewriting.interchangeable {new : Node → Node → Prop} (hnew : Rewriting new)
    (hspecial : ∀ {side n n' w Γ t t'}, Paired new Γ (.stmt t) (.stmt t') → new (.stmt t) (.stmt t') →
      Enough side (n + 1) n' → (∀ m', Enough side n m' → hnew.pairing.Lockstep side (.within n) (.within m')) →
      hnew.pairing.Runs side w Γ hnew.pairing.Outcomes (execute .byDistance (n + 1) t)
        (execute .byDistance n' t'))
    {program program' : List Stmt} (hplain : ∀ t ∈ program, Node.Plain (.stmt t))
    (hreports : (LoxLang.bindProgram program).reports = [])
    (h : List.Forall₂ (fun t u => Node.Recast new (.stmt t) (.stmt u)) program program') :
    (LoxLang.bindProgram program').reports = [] ∧
      (∃ bound', (LoxLang.bindProgram program').program = .ok bound') ∧
      ∀ clock commands, Interchangeable (Session.after commands { store := { clock := clock } }) program program' := by
  obtain ⟨bound, hbound, -⟩ := bindProgram_binds hplain
  obtain ⟨hreports', bound', hbound', hpaired⟩ := hnew.bindProgram hplain hreports hbound h
  refine ⟨hreports', ⟨bound', hbound'⟩, fun clock commands => ?_⟩
  generalize hs : Session.after commands { store := { clock := clock } } = s
  obtain ⟨w, hstores, hchain⟩ := Session.stores_itself hnew clock commands
  rw [hs] at hstores hchain
  -- Both ways it is one statement about the two runs, with the bound on one side enough for the other.
  suffices hall : ∀ side n n', Enough side n n' →
      (side = .first → (s.bindAndExecute n false program).1 ≠ .endless) →
      (side = .second → (s.bindAndExecute n' false program').1 ≠ .endless) →
      Unseen (s.bindAndExecute n false program) (s.bindAndExecute n' false program') from
    ⟨fun n hend n' hn => hall .first n n' hn (fun _ => hend) (by simp),
      fun n' hend n hn => hall .second n n' hn (by simp) fun _ => hend⟩
  intro side n n' hn hfirst hsecond
  rw [Session.bindAndExecute_of_accepted n hreports hbound, Session.bindAndExecute_of_accepted n' hreports' hbound']
    at *
  by_cases herror : s.journal.hadError = true
  · simp only [herror, if_true]
    exact ⟨rfl, rfl, rfl, rfl⟩
  · simp only [herror, Bool.false_eq_true, if_false] at hfirst hsecond ⊢
    have hlockstep : hnew.pairing.Lockstep side (.within n) (.within n') := Pairing.lockstep hspecial hn
    obtain ⟨x, -, hagree⟩ :=
      Pairing.runProgram_runs hlockstep hpaired w _ _ (List.prefix_refl w) hstores hchain
    exact hagree.unseen hfirst hsecond

end LoxLang
