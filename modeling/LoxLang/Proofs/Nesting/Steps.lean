import LoxLang.Proofs.Nesting.Braces
import LoxLang.Proofs.Tree.Equality

namespace LoxLang

open Node
open LoxLang.Stopping

mutual

/-- A continue in the statement is for the loop around it. -/
def Stmt.continues : Stmt → Bool
  | .continueLoop _ => true
  | .block ss => anyContinues ss
  | .ifThen _ y none => y.continues
  | .ifThen _ y (some n) => y.continues || n.continues
  | _ => false

def anyContinues : List Stmt → Bool
  | [] => false
  | t :: ts => t.continues || anyContinues ts

end

mutual

theorem Stmt.continues_uncounted (t : Stmt) : t.uncounted.continues = t.continues := by
  cases t with
  | block ss =>
    simp only [Stmt.uncounted, Stmt.continues]
    exact anyContinues_uncounted ss
  | ifThen c y no =>
    cases no with
    | none => exact y.continues_uncounted
    | some n => simp only [Stmt.uncounted, Stmt.continues, y.continues_uncounted, n.continues_uncounted]
  | varDecl name initial => cases initial <;> rfl
  | whileLoop c b step => cases step <;> rfl
  | ret keyword value => cases value <;> rfl
  | _ => rfl

theorem anyContinues_uncounted (ss : List Stmt) : anyContinues (uncountedStmts ss) = anyContinues ss := by
  cases ss with
  | nil => rfl
  | cons t ts => simp only [uncountedStmts, anyContinues, t.continues_uncounted, anyContinues_uncounted ts]

end

/-- Where the action ends by itself it does not end in a continue. -/
def Exec.Completes (p : Exec Outcome) : Prop := ∀ s s', p s ≠ .ok .continued s'

namespace Exec

variable {α : Type} {p : Exec Outcome}

namespace Completes

theorem pure {o : Outcome} (h : o ≠ .continued) : Completes (Pure.pure o) := by
  rintro s s' hs
  cases hs
  exact h rfl

theorem endless : Completes Exec.endless := by
  rintro s s' hs
  cases hs

theorem bind {q : Exec α} {k : α → Exec Outcome} (hk : ∀ a, (∃ s s', q s = .ok a s') → Completes (k a)) :
    Completes (q >>= k) := by
  rintro s s' hs
  cases hq : q s with
  | ok a t =>
    rw [bind_ok hq] at hs
    exact hk a ⟨s, t, hq⟩ t s' hs
  | error e t =>
    rw [bind_error hq] at hs
    cases hs

theorem within (chain : Chain) (h : p.Completes) : Completes (Exec.within chain p) := by
  rintro s s' hs
  cases hp : p { s with chain } with
  | ok o t =>
    rw [within_ok hp] at hs
    cases hs
    exact h _ _ hp
  | error e t =>
    rw [within_error hp] at hs
    cases hs

theorem passes (test : Exec Bool) (body : Exec Outcome) (step : Exec Unit) (n : Nat) :
    Completes (Exec.passes test body step n) := by
  induction n with
  | zero => exact endless
  | succ n ih =>
    rw [passes_succ]
    refine bind fun go _ => ?_
    cases go with
    | false => exact pure nofun
    | true =>
      refine bind fun o _ => ?_
      cases o with
      | broken | returned => exact pure nofun
      | normal | continued => exact bind fun _ _ => ih

end Completes

/-- A loop whose passes are not cut short takes its step at the end of each. -/
theorem passes_step_last (test : Exec Bool) (step : Exec Unit) (h : p.Completes) (n : Nat) :
    passes test p step n = passes test (do
      match ← p with
      | .normal => do
        step
        Pure.pure .normal
      | o => Pure.pure o) (Pure.pure ()) n := by
  induction n with
  | zero => rfl
  | succ n ih =>
    rw [passes_succ, passes_succ, ih]
    congr 1
    funext go
    cases go with
    | false => rfl
    | true =>
      simp only [if_true, bind_assoc]
      funext s
      cases hp : p s with
      | error e t => rw [bind_error hp, bind_error hp]
      | ok o t =>
        rw [bind_ok hp, bind_ok hp]
        cases o with
        | normal => simp
        | broken | returned => rfl
        | continued => exact absurd hp (h s t)

end Exec

theorem execute_completes {n : Nat} {t : Stmt} (h : t.continues = false) : (execute .byDistance n t).Completes := by
  induction n generalizing t with
  | zero => exact .endless
  | succ n ih =>
    have hsequence : ∀ ss, anyContinues ss = false → ((Evaluator.within n).sequence ss).Completes := by
      intro ss hss
      induction ss with
      | nil => exact .pure nofun
      | cons t ts ihs =>
        rw [anyContinues, Bool.or_eq_false_iff] at hss
        refine .bind fun o ho => ?_
        obtain ⟨s, s', ho⟩ := ho
        cases o with
        | normal => exact ihs hss.2
        | broken | returned => exact .pure nofun
        | continued => exact absurd ho (ih hss.1 s s')
    change ((Evaluator.within n).execRule t).Completes
    unfold Evaluator.execRule
    cases t with
    | continueLoop keyword => cases h
    | expression e | ofExpr e => exact .bind fun _ _ => .pure nofun
    | print e => exact .bind fun _ _ => .bind fun _ _ => .bind fun _ _ => .pure nofun
    | varDecl name initial =>
      cases initial with
      | none => exact .bind fun _ _ => .pure nofun
      | some e => exact .bind fun _ _ => .bind fun _ _ => .pure nofun
    | funDecl name f => exact .bind fun _ _ => .bind fun _ _ => .bind fun _ _ => .pure nofun
    | classDecl name ms =>
      exact .bind fun _ _ => .bind fun _ _ => .bind fun _ _ => .bind fun _ _ => .pure nofun
    | block ss => exact .bind fun _ _ => .bind fun c _ => .within c (hsequence ss h)
    | ifThen c y no =>
      refine .bind fun a _ => ?_
      cases no with
      | none =>
        split
        · exact ih h
        · exact .pure nofun
      | some e =>
        rw [Stmt.continues, Bool.or_eq_false_iff] at h
        split
        · exact ih h.1
        · exact ih h.2
    | whileLoop c b step => exact .passes _ _ _ _
    | ret keyword value =>
      cases value with
      | none => exact .pure nofun
      | some e => exact .bind fun _ _ => .pure nofun
    | breakLoop keyword => exact .pure nofun

/-- A loop with a step, and the same with the step at the end of its body. -/
def Stepped (j k : Node) : Prop :=
  ∃ c b s, j.uncounted = .stmt (.whileLoop c b (some s)) ∧
    k.uncounted = .stmt (.whileLoop c (.block [b, s]) none) ∧ b.continues = false

structure Stepped.Parts (c c' : Expr) (b b' s s' : Stmt) : Prop where
  test : SameText (.expr c) (.expr c')
  body : SameText (.stmt b) (.stmt b')
  step : SameText (.stmt s) (.stmt s')
  continues : b.continues = false

theorem Stepped.cases {j k : Node} (h : Stepped j k) : ∃ c c' b b' s s', j = .stmt (.whileLoop c b (some s)) ∧
    k = .stmt (.whileLoop c' (.block [b', s']) none) ∧ Parts c c' b b' s s' := by
  obtain ⟨_, _, _, hj, hk, hcontinues⟩ := h
  obtain ⟨_, rfl, hloop⟩ := Node.uncounted_eq_stmt hj
  obtain ⟨_, rfl, hloop'⟩ := Node.uncounted_eq_stmt hk
  obtain ⟨c, b, s, rfl, rfl, rfl, rfl⟩ := Stmt.uncounted_eq_forLoop hloop
  obtain ⟨c', _, rfl, hc, hblock⟩ := Stmt.uncounted_eq_whileLoop hloop'
  obtain ⟨_, rfl, hss⟩ := Stmt.uncounted_eq_block hblock
  obtain ⟨b', _, rfl, hb, hss⟩ := List.map_eq_cons_iff.1 hss
  obtain ⟨s', rfl, hs⟩ := List.map_eq_singleton_iff.1 hss
  exact ⟨c, c', b, b', s, s', rfl, rfl, congrArg Node.expr hc, congrArg Node.stmt hb, congrArg Node.stmt hs,
    b.continues_uncounted ▸ hcontinues⟩

section parts

variable {c c' : Expr} {b b' s s' : Stmt} {Γ : List Layer} {Δ Δ' : Context}

theorem Resolved.forLoop (h : Resolved Δ (.stmt (.whileLoop c b (some s)))) :
    (b.declares = [] ∧ ∃ e, s = .expression e) ∧ Resolved Δ (.expr c) ∧ Resolved (Δ.withLoop true) (.stmt b) ∧
      Resolved (Δ.withLoop true) (.stmt s) := by
  obtain ⟨⟨hregular, -⟩, hbelow⟩ := (resolved_iff _ _).1 h
  exact ⟨⟨hregular.1, hregular.2 s rfl⟩, hbelow (Δ, .expr c) (by simp [Node.children]),
    hbelow (Δ.withLoop true, .stmt b) (by simp [Node.children]),
    hbelow (Δ.withLoop true, .stmt s) (by simp [Node.children])⟩

theorem Node.children_of_two (hb : b.declares = []) : (Node.stmt (.block [b, s])).children Δ =
    [(Δ.enter (.block [b, s]) ⟨[]⟩, .stmt b), (Δ.enter (.block [b, s]) ⟨[]⟩, .stmt s)] := by
  simp [Node.children, Context.sequence, Stmt.after, hb]

namespace Stepped.Parts

theorem declares (h : Parts c c' b b' s s') : b'.declares = b.declares :=
  Stmt.declares_eq_of_uncounted (Node.stmt.inj h.body)

theorem related {N : Node → Node → Prop} (h : Parts c c' b b' s s') (hb : Beside Γ Δ Δ') (hΔ : Δ.Settled)
    (hloop : Resolved Δ (.stmt (.whileLoop c b (some s)))) :
    let inner := (Δ'.withLoop true).enter (.block [b', s']) ⟨[]⟩
    Related N Γ (Δ, .expr c) (Δ', .expr c') ∧
      Related N (.further :: Γ) (Δ.withLoop true, .stmt b) (inner, .stmt b') ∧
      Related N (.further :: Γ) (Δ.withLoop true, .stmt s) (inner, .stmt s') := by
  obtain ⟨⟨hdeclares, e, rfl⟩, -⟩ := hloop.forLoop
  have hinner := (hb.withLoop true).enter_further hΔ (.block [b', s'])
  exact ⟨.expr hb (.inl h.test), .branch hinner (.inl h.body) hΔ hdeclares, .branch hinner (.inl h.step) hΔ rfl⟩

theorem paired (h : Parts c c' b b' s s')
    (hp : Paired Stepped Γ (.stmt (.whileLoop c b (some s))) (.stmt (.whileLoop c' (.block [b', s']) none))) :
    Paired Stepped Γ (.expr c) (.expr c') ∧ Paired Stepped (.further :: Γ) (.stmt b) (.stmt b') ∧
      Paired Stepped (.further :: Γ) (.stmt s) (.stmt s') := by
  obtain ⟨Δ, Δ', hj, hj', hrelated⟩ := hp
  obtain ⟨hc, hb, hs⟩ := h.related (N := Stepped) hrelated.beside (hrelated.settled _ rfl) hj
  obtain ⟨⟨hdeclares, -⟩, hrc, hrb, hrs⟩ := hj.forLoop
  have hloop := ((abides_iff _ _ _).1 hj').2
  have hblock := ((abides_iff _ _ _).1 (hloop (Δ'.withLoop true, .stmt (.block [b', s']))
    (by simp [Node.children]))).2
  rw [Node.children_of_two (h.declares.trans hdeclares)] at hblock
  exact ⟨⟨_, _, hrc, hloop (Δ', .expr c') (by simp [Node.children]), hc⟩, ⟨_, _, hrb, hblock _ List.mem_cons_self, hb⟩,
    ⟨_, _, hrs, hblock _ (List.mem_cons_of_mem _ List.mem_cons_self), hs⟩⟩

end Stepped.Parts

end parts

theorem stepped_rewriting : Rewriting Stepped where
  statements j k h := by
    obtain ⟨c, c', b, b', s, s', rfl, rfl, -⟩ := h.cases
    exact ⟨_, _, rfl, rfl, rfl⟩
  congr h hj hk := by
    obtain ⟨c, b, s, hloop, hloop', hcontinues⟩ := h
    exact ⟨c, b, s, hj.trans hloop, hk.trans hloop', hcontinues⟩
  allowed {Γ x x'} h hx hnew := by
    obtain ⟨Δ, j⟩ := x
    obtain ⟨Δ', k⟩ := x'
    obtain ⟨c, c', b, b', s, s', rfl, rfl, hparts⟩ := hnew.cases
    obtain ⟨⟨hdeclares, -⟩, hrc, hrb, hrs⟩ := hx.forLoop
    obtain ⟨hc, hb, hs⟩ := hparts.related h.beside (h.settled _ rfl) hx
    have hblock : Throughout (fun Δ j => j.Common ∧ j.Allowed Δ)
        (Δ'.withLoop true, .stmt (.block [b', s'])) := by
      rw [throughout_forall, Node.children_of_two (hparts.declares.trans hdeclares)]
      exact ⟨⟨trivial, trivial⟩, hb.throughout_same hrb, hs.throughout_same hrs⟩
    rw [throughout_forall]
    exact ⟨⟨⟨rfl, nofun⟩, trivial⟩, hc.throughout_same hrc, hblock⟩

theorem Evaluator.sequence_step (n : Nat) (b : Stmt) (e : Expr) :
    (Evaluator.within n).sequence [b, .expression e] = (do
      match ← execute .byDistance n b with
      | .normal => do
        discard (execute .byDistance n (.expression e))
        pure .normal
      | o => pure o) := by
  have hstep : (do discard (execute .byDistance n (.expression e)); pure .normal) =
      execute .byDistance n (.expression e) := by
    cases n with
    | zero => rfl
    | succ n =>
      funext s
      change (do discard ((Evaluator.within n).execRule (.expression e)); pure .normal : Exec Outcome) s =
        (Evaluator.within n).execRule (.expression e) s
      simp [Evaluator.execRule, discard, LawfulFunctor.map_const]
  have hsingle := Evaluator.sequence_singleton (.within n) (.expression e)
  rw [Evaluator.sequence]
  refine bind_congr fun o => ?_
  cases o with
  | normal => exact hsingle.trans hstep.symm
  | _ => rfl

theorem stepped_runs {side : Side} {n n' : Nat} {w : List Nat} {Γ : List Layer} {t t' : Stmt}
    (hp : Paired Stepped Γ (.stmt t) (.stmt t')) (hstepped : Stepped (.stmt t) (.stmt t'))
    (hn : Enough side (n + 1) n')
    (hbelow : ∀ m', Enough side n m' → stepped_rewriting.pairing.Lockstep side (.within n) (.within m')) :
    stepped_rewriting.pairing.Runs side w Γ stepped_rewriting.pairing.Outcomes (execute .byDistance (n + 1) t)
      (execute .byDistance n' t') := by
  obtain ⟨c, c', b, b', s, s', ht, ht', hparts⟩ := hstepped.cases
  cases ht
  cases ht'
  obtain ⟨hc, hb, hs⟩ := hparts.paired hp
  obtain ⟨Δ, -, hresolved, -⟩ := hp
  obtain ⟨⟨-, e, rfl⟩, -⟩ := hresolved.forLoop
  obtain (⟨-, h⟩ | ⟨hside, rfl⟩) | ⟨_, m, hm, rfl, hnm⟩ := hn.cases
  · cases h
  · exact .second hside
  obtain rfl := Nat.succ.inj hm
  have hbody : stepped_rewriting.pairing.Runs side w Γ stepped_rewriting.pairing.Outcomes
      ((Evaluator.within n).sequence [b, .expression e]) (execute .byDistance m (.block [b', s'])) := by
    obtain ⟨hside, rfl⟩ | ⟨k, rfl, hk⟩ := hn.inner
    · exact .second hside
    · exact .further _ ((hbelow k hk).sequence_runs (.cons hb (.cons hs .nil)))
  rw [Evaluator.sequence_step] at hbody
  change stepped_rewriting.pairing.Runs side w Γ _ (Exec.passes _ (execute .byDistance n b) _ n) _
  rw [Exec.passes_step_last _ _ (execute_completes hparts.continues)]
  exact Pairing.passes_runs ((hbelow m hnm).test_runs hc) hbody (.pure fun _ _ => trivial) hnm

/-- The step of a loop whose passes no continue cuts short is as well the last statement of its body: the program
with it there is accepted, and the two may stand for each other in any session. -/
theorem step_interchangeable {source : String} {program : List Stmt} {address : List Nat} {c : Expr} {b s : Stmt}
    (hread : (parse (Token.scan source).1).1 = some program) (hreports : (bindProgram program).reports = [])
    (hloop : nodeAt program address = some (.stmt (.whileLoop c b (some s)))) (hcontinues : b.continues = false) :
    let text := replaceAt program address (.stmt (.whileLoop c (.block [b, s]) none))
    (bindProgram text).reports = [] ∧ (∃ bound', (bindProgram text).program = .ok bound') ∧
      ∀ clock commands, Interchangeable (Session.after commands { store := { clock := clock } }) program text := by
  have hstepped : Stepped (.stmt (.whileLoop c b (some s))) (.stmt (.whileLoop c (.block [b, s]) none)) :=
    ⟨c.uncounted, b.uncounted, s.uncounted, rfl, by simp [Node.uncounted, Stmt.uncounted],
      b.continues_uncounted.trans hcontinues⟩
  exact stepped_rewriting.interchangeable stepped_runs (fun t ht => (parse_scan_shaped hread t ht).plain) hreports
    (replaceAt_recast (fun _ _ => stepped_rewriting.sameKind) hloop (.here hstepped))

section once

def onceText : String := "for (var a = true; a; a = false) \x7b print a; break; \x7d"

def onceBody : Stmt := .block [.print (.ref ⟨.identifier, "a", 1, none⟩ none), .breakLoop ⟨.kwBreak, "break", 1, none⟩]

def onceStep : Stmt := .expression (.assign ⟨.identifier, "a", 1, none⟩ none (.literal (.bool false)))

def onceTree (body : Stmt) (step : Option Stmt) : List Stmt :=
  let a : Token := ⟨.identifier, "a", 1, none⟩
  [.block [.varDecl a (some (.literal (.bool true))), .whileLoop (.ref a none) body step]]

theorem onceText_step_last :
    let program := onceTree onceBody (some onceStep)
    let text := onceTree (.block [onceBody, onceStep]) none
    (parse (Token.scan onceText).1).1 = some program ∧ (bindProgram program).reports = [] ∧
      onceBody.continues = false ∧ (bindProgram text).reports = [] ∧
      ∀ clock commands, Interchangeable (Session.after commands { store := { clock := clock } }) program text := by
  intro program text
  have hread : (parse (Token.scan onceText).1).1 = some program := by decide +kernel
  have hreports : (bindProgram program).reports = [] := rfl
  have hsteps := @step_interchangeable _ _ [1, 0] _ onceBody onceStep hread hreports rfl rfl
  exact ⟨hread, hreports, rfl, hsteps.1, hsteps.2.2⟩

end once

end LoxLang
