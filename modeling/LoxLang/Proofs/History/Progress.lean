import LoxLang.Proofs.History.Traced
import LoxLang.Proofs.Running.Lawful

namespace LoxLang

/-- A node that has begun and not ended. A call has its callee once that is evaluated. -/
structure Running where
  node : Node
  callee : Option Value := none

/-- The nodes that have begun and not ended, the innermost first, and how the innermost of them has to end
now if that is decided. -/
structure Progress where
  nodes : List Running := []
  due : Option Outcome := none

def Outcome.Jumps : Outcome → Prop
  | .broken | .continued => True
  | .normal | .returned _ => False

namespace Progress

/-- The first value given within a call is its callee. -/
def give (v : Value) : List Running → List Running
  | ⟨.expr (.call f paren args), none⟩ :: outer => ⟨.expr (.call f paren args), some v⟩ :: outer
  | nodes => nodes

/-- How the innermost node has to end when a statement right below it ends so. A loop goes on after a continue
and ends normally at a break; all else ends as the statement does. -/
def owed (o : Outcome) : List Running → Option Outcome
  | [] => none
  | ⟨.stmt (.whileLoop _ _ _), _⟩ :: _ =>
    match o with
    | .normal | .continued => none
    | .broken => some .normal
    | .returned v => some (.returned v)
  | _ :: _ =>
    match o with
    | .normal => none
    | o => some o

def after (σ : Progress) : Moment → Progress
  | .came j _ => ⟨⟨j, none⟩ :: σ.nodes, none⟩
  | .gave _ v _ => ⟨give v σ.nodes.tail, none⟩
  | .ended _ o _ => ⟨σ.nodes.tail, owed o σ.nodes.tail⟩
  | .stopped _ _ _ => ⟨σ.nodes.tail, none⟩

end Progress

def progress (past : List Moment) : Progress := past.foldl Progress.after {}

def Value.routine? : Value → Option Routine
  | .function _ r => some r
  | .classDef _ c => c.initializer?
  | _ => none

def Value.initializes : Value → Bool
  | .function _ r => r.isInitializer
  | .classDef _ _ => true
  | _ => false

def Stmt.isLoop : Stmt → Bool
  | .whileLoop _ _ _ => true
  | _ => false

/-- Inside these nodes the statement is in the body of a loop, and in no other loop or function within that. -/
inductive InBody : Stmt → List Running → Prop
  | loop {t : Stmt} {c : Expr} {step : Option Stmt} {outer : List Running} :
    InBody t (⟨.stmt (.whileLoop c t step), none⟩ :: outer)
  | statement {t u : Stmt} {outer : List Running} (hu : u.isLoop = false) (h : InBody u outer) :
    InBody t (⟨.stmt u, none⟩ :: outer)

/-- Where a statement stands that ends so. At the top it ends normally, and so does the step of a loop. In the
body of a function it ends normally or returns, from an initializer without a value. -/
inductive EndsAt (t : Stmt) (o : Outcome) : List Running → Prop
  | top (h : o = .normal) : EndsAt t o []
  | body {f : Expr} {paren : Token} {args : List Expr} {callee : Value} {r : Routine} {outer : List Running}
    (hr : callee.routine? = some r) (ht : t ∈ r.definition.body) (hjumps : ¬ o.Jumps)
    (hvalue : callee.initializes = true → o.value = .nil) :
    EndsAt t o (⟨.expr (.call f paren args), some callee⟩ :: outer)
  | inside {u : Stmt} {outer : List Running} (ht : Node.stmt t ∈ (Node.stmt u).parts)
    (hstep : ∀ c b, u = .whileLoop c b (some t) → o = .normal) : EndsAt t o (⟨.stmt u, none⟩ :: outer)

/-- A statement that ends so inside these nodes leaves no jump astray. -/
structure Contained (t : Stmt) (o : Outcome) (outer : List Running) : Prop where
  ends : EndsAt t o outer
  loop : t.isLoop = true → ¬ o.Jumps
  jump : o.Jumps → InBody t outer

/-- A moment that may be next. What is due happens before anything else does. -/
inductive Orderly (σ : Progress) : Moment → Prop
  | came {j : Node} {s : Store} (h : σ.due = none) : Orderly σ (.came j s)
  | stopped {j : Node} {e : Stop} {s : Store} (h : σ.due = none) : Orderly σ (.stopped j e s)
  | gave {e : Expr} {v : Value} {s : Store} {callee : Option Value} {outer : List Running}
    (hnodes : σ.nodes = ⟨.expr e, callee⟩ :: outer)
    (hdue : ∀ o, σ.due = some o → ∃ a, callee = some a ∧ (a.initializes = false → v = o.value)) :
    Orderly σ (.gave e v s)
  | ended {t : Stmt} {o : Outcome} {s : Store} {outer : List Running} (hnodes : σ.nodes = ⟨.stmt t, none⟩ :: outer)
    (hdue : ∀ o', σ.due = some o' → o = o') (h : Contained t o outer) : Orderly σ (.ended t o s)

def Ordered (past : List Moment) : Prop :=
  ∀ earlier m later, past = earlier ++ m :: later → Orderly (progress earlier) m

section ordered

variable {past : List Moment} {m : Moment}

theorem progress_append (past : List Moment) (m : Moment) : progress (past ++ [m]) = (progress past).after m := by
  rw [progress, List.foldl_append]
  rfl

theorem Ordered.nil : Ordered [] := fun earlier m later h => by simp at h

theorem Ordered.append (h : Ordered past) (hm : Orderly (progress past) m) : Ordered (past ++ [m]) := by
  intro earlier m' later heq
  obtain rfl | ⟨more, last, rfl⟩ := later.eq_nil_or_concat'
  · obtain ⟨rfl, hsame⟩ := List.append_inj' heq rfl
    exact (List.cons.inj hsame).1 ▸ hm
  · rw [← List.cons_append, ← List.append_assoc] at heq
    exact h earlier m' more (List.append_inj_left' heq rfl)

theorem Progress.owed_normal (nodes : List Running) : owed .normal nodes = none := by
  unfold owed
  split <;> rfl

theorem Progress.owed_eq {o o' : Outcome} {j : Node} {callee : Option Value} {outer : List Running}
    (hj : ∀ c b step, j ≠ .stmt (.whileLoop c b step)) (h : owed o (⟨j, callee⟩ :: outer) = some o') : o = o' := by
  unfold owed at h
  split at h
  · rename_i heq
    cases heq
  · rename_i heq
    exact absurd (Running.mk.inj (List.cons.inj heq).1).1 (hj _ _ _)
  · split at h
    · cases h
    · exact Option.some.inj h

end ordered

/-- A law on functions: the static rules hold throughout their definitions, and the role there is that of a
function, or of an initializer for one that initializes. -/
def Routine.Allowed (r : Routine) : Prop :=
  ∃ Δ, Resolved Δ (.lambda r.definition) ∧ Δ.here.role ≠ .none ∧
    (r.isInitializer = true → Δ.here.role = .initializer)

open Stopping
open Traced (act)

variable {α β : Type}

/-- With so much in progress, from an orderly history and a lawful store the action comes to such again, and
nothing is due when it stops. -/
def Tame (σ : Progress) (P : α → Progress → Prop) (p : Traced α) : Prop :=
  ∀ x : Store × List Moment, x.1.Lawful Routine.Allowed → progress x.2 = σ → Ordered x.2 →
    (∀ a y, p x = .ok a y → y.1.Lawful Routine.Allowed ∧ Ordered y.2 ∧ P a (progress y.2)) ∧
    ∀ e y, p x = .error e y → y.1.Lawful Routine.Allowed ∧ Ordered y.2 ∧ (progress y.2).due = none

namespace Tame

variable {σ τ : Progress} {P P' : α → Progress → Prop} {Q : β → Progress → Prop} {p : Traced α}

theorem pure {a : α} (h : P a σ) : Tame σ P (Pure.pure a) := by
  refine fun x hs hσ ho => ⟨fun b y hy => ?_, fun e y hy => by cases hy⟩
  cases hy
  exact ⟨hs, ho, hσ ▸ h⟩

theorem weaken (h : Tame σ P p) (hP : ∀ a τ, P a τ → P' a τ) : Tame σ P' p := by
  intro x hs hσ ho
  obtain ⟨hok, herror⟩ := h x hs hσ ho
  refine ⟨fun a y hy => ?_, herror⟩
  obtain ⟨hs', ho', hpost⟩ := hok a y hy
  exact ⟨hs', ho', hP _ _ hpost⟩

theorem bind {k : α → Traced β} (hp : Tame σ P p) (hk : ∀ a τ, P a τ → Tame τ Q (k a)) : Tame σ Q (p >>= k) := by
  intro x hs hσ ho
  obtain ⟨hok, herror⟩ := hp x hs hσ ho
  cases hpx : p x with
  | error e y =>
    rw [bind_error hpx]
    refine ⟨fun b z hz => (by cases hz), fun e' z hz => ?_⟩
    cases hz
    exact herror e y hpx
  | ok a y =>
    rw [bind_ok hpx]
    obtain ⟨hs', ho', hpost⟩ := hok a y hpx
    exact hk a _ hpost y hs' rfl ho'

theorem blaming (line : Int) (hp : Tame σ P p) : Tame σ P (Traced.blaming line p) := by
  intro x hs hσ ho
  obtain ⟨hok, herror⟩ := hp x hs hσ ho
  unfold Traced.blaming
  cases hpx : p x with
  | ok a y => exact ⟨fun b z hz => by cases hz; exact hok a y hpx, fun e z hz => by cases hz⟩
  | error e y => exact ⟨fun b z hz => (by cases hz), fun e z hz => by cases hz; exact herror _ y hpx⟩

theorem within (chain : Chain) (hp : Tame σ P p) : Tame σ P (Traced.within chain p) := by
  intro x hs hσ ho
  obtain ⟨hok, herror⟩ := hp ({ x.1 with chain }, x.2) (hs.congr rfl rfl rfl) hσ ho
  unfold Traced.within
  cases hpx : p ({ x.1 with chain }, x.2) with
  | ok a y =>
    refine ⟨fun b z hz => ?_, fun e z hz => by cases hz⟩
    cases hz
    obtain ⟨hs', ho', hpost⟩ := hok a y hpx
    exact ⟨hs'.congr rfl rfl rfl, ho', hpost⟩
  | error e y =>
    refine ⟨fun b z hz => (by cases hz), fun e' z hz => ?_⟩
    cases hz
    obtain ⟨hs', ho', hdue⟩ := herror e y hpx
    exact ⟨hs'.congr rfl rfl rfl, ho', hdue⟩

theorem act {R : α → Prop} {q : Exec α} (hdue : σ.due = none) (hq : Exec.Keeps Routine.Allowed R q)
    (h : ∀ a, R a → P a σ) : Tame σ P (act q) := by
  intro x hs hσ ho
  obtain ⟨hok, herror⟩ := hq x.1 hs
  unfold Traced.act
  cases hqx : q x.1 with
  | ok a s =>
    refine ⟨fun b y hy => ?_, fun e y hy => by cases hy⟩
    cases hy
    obtain ⟨hs', hpost⟩ := hok a s hqx
    exact ⟨hs', ho, hσ ▸ h a hpost⟩
  | error e s =>
    refine ⟨fun b y hy => (by cases hy), fun e' y hy => ?_⟩
    cases hy
    exact ⟨herror e s hqx, ho, hσ ▸ hdue⟩

theorem store {R : α → Prop} {q : Exec α} (hdue : σ.due = none) (hq : Exec.Keeps Routine.Allowed R q) :
    Tame σ (fun a τ => R a ∧ τ = σ) (Traced.act q) := act hdue hq fun _ ha => ⟨ha, rfl⟩

theorem fault (hdue : σ.due = none) (cause : Fault.Cause) (line : Option Int) :
    Tame σ P (Traced.act (Exec.fault cause line)) := act hdue (.fault (P := fun _ => False) cause line) fun _ h => h.elim

theorem endless (hdue : σ.due = none) : Tame σ P (Traced.act (Exec.endless : Exec α)) :=
  act hdue (.throw (P := fun _ => False) _) fun _ h => h.elim

theorem get {k : Store → Traced β} (hk : ∀ s : Store, s.Lawful Routine.Allowed → Tame σ Q (k s)) :
    Tame σ Q (Traced.act MonadState.get >>= k) := fun x hs hσ ho => hk x.1 hs x hs hσ ho

theorem marked {j : Node} {mark : α → Store → Moment} (hdue : σ.due = none)
    (hp : Tame ⟨⟨j, none⟩ :: σ.nodes, none⟩ P p)
    (hP : ∀ a τ s, P a τ → Orderly τ (mark a s) ∧ P' a (τ.after (mark a s))) : Tame σ P' (Traced.marked j mark p) := by
  intro x hs hσ ho
  have hbegun : progress (x.2 ++ [.came j x.1]) = ⟨⟨j, none⟩ :: σ.nodes, none⟩ := by
    rw [progress_append, hσ]
    rfl
  obtain ⟨hok, herror⟩ := hp (x.1, x.2 ++ [.came j x.1]) hs hbegun (ho.append (.came (hσ ▸ hdue)))
  unfold Traced.marked
  cases hpx : p (x.1, x.2 ++ [.came j x.1]) with
  | ok a y =>
    refine ⟨fun b z hz => ?_, fun e z hz => by cases hz⟩
    cases hz
    obtain ⟨hs', ho', hpost⟩ := hok a y hpx
    obtain ⟨hm, hpost'⟩ := hP a _ y.1 hpost
    exact ⟨hs', ho'.append hm, by rw [progress_append]; exact hpost'⟩
  | error e y =>
    refine ⟨fun b z hz => (by cases hz), fun e' z hz => ?_⟩
    cases hz
    obtain ⟨hs', ho', hdue'⟩ := herror e y hpx
    exact ⟨hs', ho'.append (.stopped hdue'), by rw [progress_append]; rfl⟩

end Tame

end LoxLang
