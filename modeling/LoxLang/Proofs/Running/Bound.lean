import LoxLang.Proofs.Running.Rules
import LoxLang.Session

namespace LoxLang

open Stopping

namespace Exec

variable {α β : Type} {cut : Stop → Prop} {p p' : Exec α}

/-- The second action does what the first does, unless the first is cut short. -/
def Extends (cut : Stop → Prop) (p p' : Exec α) : Prop := ∀ s, (∃ e t, cut e ∧ p s = .error e t) ∨ p' s = p s

namespace Extends

theorem refl (p : Exec α) : p.Extends cut p := fun _ => .inr rfl

theorem endless (hcut : cut .endless) (p : Exec α) : Exec.endless.Extends cut p := fun s => .inl ⟨_, s, hcut, rfl⟩

theorem of_eq (h : p.Extends cut p') {s : Store} {r : EStateM.Result Stop Store α} (hp : p s = r)
    (hr : ∀ e t, cut e → r ≠ .error e t) : p' s = r := by
  obtain ⟨e, t, he, ht⟩ | heq := h s
  · exact absurd (hp.symm.trans ht) (hr e t he)
  · exact heq.trans hp

theorem bind {k k' : α → Exec β} (hp : p.Extends cut p') (hk : ∀ a, (k a).Extends cut (k' a)) :
    (p >>= k).Extends cut (p' >>= k') := by
  intro s
  obtain ⟨e, t, he, ht⟩ | heq := hp s
  · exact .inl ⟨e, t, he, bind_error ht⟩
  · cases hps : p s with
    | ok a t =>
      rw [bind_ok hps, bind_ok (heq.trans hps)]
      exact hk a t
    | error e t =>
      rw [bind_error hps, bind_error (heq.trans hps)]
      exact .inr rfl

theorem map (f : α → β) (hp : p.Extends cut p') :
    (p >>= fun a => pure (f a)).Extends cut (p' >>= fun a => pure (f a)) :=
  hp.bind fun a => refl (pure (f a))

theorem get {k k' : Store → Exec α} (hk : ∀ s, (k s).Extends cut (k' s)) :
    ((MonadState.get : Exec Store) >>= k).Extends cut ((MonadState.get : Exec Store) >>= k') := fun s => hk s s

theorem ite {c : Prop} [Decidable c] {q q' : Exec α} (hp : p.Extends cut p') (hq : q.Extends cut q') :
    (if c then p else q : Exec α).Extends cut (if c then p' else q') := by
  split
  · exact hp
  · exact hq

theorem within (chain : Chain) (hp : p.Extends cut p') : (Exec.within chain p).Extends cut (Exec.within chain p') := by
  intro s
  obtain ⟨e, t, he, ht⟩ | heq := hp { s with chain }
  · exact .inl ⟨e, _, he, within_error ht⟩
  · exact .inr (by simp only [Exec.within, heq])

theorem blaming (hcut : ∀ f, ¬ cut (.fault f)) (line : Int) (hp : p.Extends cut p') :
    (Exec.blaming line p).Extends cut (Exec.blaming line p') := by
  intro s
  obtain ⟨e, t, he, ht⟩ | heq := hp s
  · refine .inl ⟨e, t, he, ?_⟩
    cases e with
    | fault f => exact absurd he (hcut f)
    | _ => exact blaming_error ht
  · exact .inr (by simp only [Exec.blaming, heq])

theorem passes (hcut : cut .endless) {test test' : Exec Bool} {body body' : Exec Outcome} {step step' : Exec Unit}
    (htest : test.Extends cut test') (hbody : body.Extends cut body') (hstep : step.Extends cut step') {n m : Nat}
    (h : n ≤ m) : (Exec.passes test body step n).Extends cut (Exec.passes test' body' step' m) := by
  induction n generalizing m with
  | zero => exact endless hcut _
  | succ n ih =>
    cases m with
    | zero => exact absurd h (Nat.not_succ_le_zero n)
    | succ m =>
      rw [passes_succ, passes_succ]
      refine htest.bind fun go => ite (hbody.bind fun o => ?_) (refl _)
      cases o with
      | broken | returned => exact refl _
      | normal | continued => exact hstep.bind fun _ => ih (Nat.le_of_succ_le_succ h)

end Extends

end Exec

namespace Evaluator

structure Extends (cut : Stop → Prop) (m m' : Evaluator) : Prop where
  endless : cut .endless
  fault : ∀ f, ¬ cut (.fault f)
  read : ∀ name hops, (m.addressing.read name hops).Extends cut (m'.addressing.read name hops)
  write : ∀ name hops v, (m.addressing.write name hops v).Extends cut (m'.addressing.write name hops v)
  limit : m.limit ≤ m'.limit
  eval : ∀ e, (m.eval e).Extends cut (m'.eval e)
  exec : ∀ t, (m.exec t).Extends cut (m'.exec t)

namespace Extends

variable {cut : Stop → Prop} {m m' : Evaluator} (h : m.Extends cut m')

include h

theorem evalAll (es : List Expr) : (m.evalAll es).Extends cut (m'.evalAll es) := by
  induction es with
  | nil => exact .refl _
  | cons e es ih => exact (h.eval e).bind fun _ => ih.map _

theorem sequence (ts : List Stmt) : (m.sequence ts).Extends cut (m'.sequence ts) := by
  induction ts with
  | nil => exact .refl _
  | cons t ts ih =>
    refine (h.exec t).bind fun o => ?_
    cases o with
    | normal => exact ih
    | _ => exact .refl _

theorem block (contents : Bindings Value) (outer : Chain) (ts : List Stmt) :
    (m.block contents outer ts).Extends cut (m'.block contents outer ts) :=
  (Exec.Extends.refl _).bind fun chain => (h.sequence ts).within chain

theorem invoke (r : Routine) (args : List Value) : (m.invoke r args).Extends cut (m'.invoke r args) :=
  (h.block _ _ _).bind fun _ => .refl _

theorem instantiate (c : Class) (args : List Value) : (m.instantiate c args).Extends cut (m'.instantiate c args) := by
  refine (Exec.Extends.refl _).bind fun self => ?_
  cases c.initializer? with
  | none => exact .refl _
  | some r => exact (Exec.Extends.refl _).bind fun bound => (h.invoke bound args).bind fun _ => .refl _

theorem apply (callee : Value) (args : List Value) (line : Int) :
    (m.apply callee args line).Extends cut (m'.apply callee args line) := by
  cases callee with
  | function i r => exact .ite ((h.invoke r args).blaming h.fault line) (.refl _)
  | classDef i c => exact .ite ((h.instantiate c args).blaming h.fault line) (.refl _)
  | _ => exact .refl _

theorem evalRule (e : Expr) : (m.evalRule e).Extends cut (m'.evalRule e) := by
  cases e with
  | ref name hops => exact h.read name hops
  | self keyword hops => exact h.read keyword hops
  | assign name hops e => exact (h.eval e).bind fun v => (h.write name hops v).bind fun _ => .refl _
  | group e => exact h.eval e
  | unary op e => exact (h.eval e).bind fun _ => .refl _
  | binary l op r => exact (h.eval l).bind fun _ => (h.eval r).bind fun _ => .refl _
  | logical l op r => exact (h.eval l).bind fun _ => .ite (.refl _) (h.eval r)
  | ternary c y n line =>
    refine (h.eval c).bind fun v => ?_
    cases v with
    | bool b =>
      cases b with
      | true => exact h.eval y
      | false => exact h.eval n
    | _ => exact .refl _
  | call f paren args => exact (h.eval f).bind fun v => (h.evalAll args).bind fun vs => h.apply v vs paren.line
  | property o name => exact (h.eval o).bind fun _ => .refl _
  | setProperty o name e =>
    refine (h.eval o).bind fun v => ?_
    cases v with
    | object => exact (h.eval e).bind fun _ => .refl _
    | _ => exact .refl _
  | list es => exact (h.evalAll es).bind fun _ => .refl _
  | ofStmt t => exact (h.exec t).bind fun _ => .refl _
  | literal | function | stub => exact .refl _

theorem execRule (t : Stmt) : (m.execRule t).Extends cut (m'.execRule t) := by
  cases t with
  | expression e => exact (h.eval e).bind fun _ => .refl _
  | print e => exact (h.eval e).bind fun _ => .refl _
  | varDecl name initial =>
    cases initial with
    | none => exact .refl _
    | some e => exact (h.eval e).bind fun _ => .refl _
  | block ts => exact .get fun s => h.block ⟨[]⟩ s.chain ts
  | ifThen c y no =>
    refine (h.eval c).bind fun v => .ite (h.exec y) ?_
    cases no with
    | none => exact .refl _
    | some n => exact h.exec n
  | whileLoop c body step =>
    cases step with
    | none => exact .passes h.endless ((h.eval c).map _) (h.exec body) (.refl _) h.limit
    | some s => exact .passes h.endless ((h.eval c).map _) (h.exec body) ((h.exec s).map fun _ => ()) h.limit
  | ret keyword value =>
    cases value with
    | none => exact .refl _
    | some e => exact (h.eval e).map _
  | ofExpr e => exact (h.eval e).bind fun _ => .refl _
  | funDecl | classDecl | breakLoop | continueLoop => exact .refl _

end Extends

end Evaluator

theorem extends_succ (a : Addressing) (n : Nat) :
    Evaluator.Extends (.endless = ·) ⟨a, n, evaluate a n, execute a n⟩
      ⟨a, n + 1, evaluate a (n + 1), execute a (n + 1)⟩ := by
  induction n with
  | zero =>
    exact ⟨rfl, nofun, fun _ _ => .refl _, fun _ _ _ => .refl _, Nat.zero_le _, fun _ => .endless rfl _,
      fun _ => .endless rfl _⟩
  | succ n ih =>
    refine ⟨rfl, nofun, fun _ _ => .refl _, fun _ _ _ => .refl _, Nat.le_succ _, fun e => ?_, fun t => ?_⟩
    · simp only [evaluate]
      exact ih.evalRule e
    · simp only [execute]
      exact ih.execRule t

theorem runProgram_succ (a : Addressing) (n : Nat) (ts : List Stmt) :
    (runProgram a n ts).Extends (.endless = ·) (runProgram a (n + 1) ts) := by
  induction ts with
  | nil => exact .refl _
  | cons t ts ih => exact ((extends_succ a n).exec t).bind fun _ => ih

/-- How a program ends does not depend on the bound. -/
theorem runProgram_mono {a : Addressing} {n m : Nat} (hle : n ≤ m) {ts : List Stmt} {s : Store}
    {r : EStateM.Result Stop Store Unit} (h : runProgram a n ts s = r) (hr : ∀ t, r ≠ .error .endless t) :
    runProgram a m ts s = r := by
  induction hle with
  | refl => exact h
  | step _ ih => exact (runProgram_succ a _ ts).of_eq ih fun _ t he => he ▸ hr t

theorem Session.execute_mono {n m : Nat} (hle : n ≤ m) {ts : List Stmt} {s : Session}
    (h : (s.execute n ts).1 ≠ .endless) : s.execute m ts = s.execute n ts := by
  unfold execute at h ⊢
  cases hresult : runProgram .byDistance n ts s.store with
  | ok a t => rw [runProgram_mono hle hresult (by simp)]
  | error e t =>
    cases e with
    | endless =>
      rw [hresult] at h
      exact absurd rfl h
    | fault f => rw [runProgram_mono hle hresult (by simp)]
    | defect d => rw [runProgram_mono hle hresult (by simp)]

end LoxLang
