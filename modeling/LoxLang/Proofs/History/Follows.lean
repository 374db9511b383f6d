import LoxLang.Proofs.History.Traced
import LoxLang.Proofs.Running.Rules

namespace LoxLang

open Stopping Traced

variable {α β : Type}

/-- The second of two actions, with a history on the side. -/
structure Follows (p : Traced α) (q : Exec α) : Prop where
  ok : ∀ {s a t}, q s = .ok a t → ∃ new, (∀ m ∈ new, m.isStop = false) ∧
    ∀ h, p (s, h) = .ok a (t, h ++ new)
  error : ∀ {s e t}, q s = .error e t → ∃ ran stops, (∀ m ∈ ran, m.isStop = false) ∧
    (∀ m ∈ stops, m.isStop = true) ∧ ∀ h, p (s, h) = .error e (t, h ++ (ran ++ stops))

namespace Follows

theorem act (q : Exec α) : Follows (Traced.act q) q where
  ok hq := ⟨[], by simp, fun h => by simp [Traced.act, hq]⟩
  error hq := ⟨[], [], by simp, by simp, fun h => by simp [Traced.act, hq]⟩

theorem pure (a : α) : Follows (Pure.pure a) (Pure.pure a) where
  ok hq := ⟨[], by simp, fun h => by cases hq; simp [pure_apply]⟩
  error hq := nomatch hq

variable {p : Traced α} {q : Exec α}

theorem bind {k : α → Traced β} {l : α → Exec β} (hp : Follows p q) (hk : ∀ a, Follows (k a) (l a)) :
    Follows (p >>= k) (q >>= l) where
  ok {s b t} h := by
    cases hq : q s with
    | error e u => rw [bind_error hq] at h; cases h
    | ok a u =>
      rw [bind_ok hq] at h
      obtain ⟨new, hnew, hpnew⟩ := hp.ok hq
      obtain ⟨more, hmore, hkmore⟩ := (hk a).ok h
      refine ⟨new ++ more, List.forall_mem_append.2 ⟨hnew, hmore⟩, fun h => ?_⟩
      rw [bind_ok (hpnew h), hkmore, List.append_assoc]
  error {s e t} h := by
    cases hq : q s with
    | error e' u =>
      rw [bind_error hq] at h
      cases h
      obtain ⟨ran, stops, hran, hstops, hpnew⟩ := hp.error hq
      exact ⟨ran, stops, hran, hstops, fun h => bind_error (hpnew h)⟩
    | ok a u =>
      rw [bind_ok hq] at h
      obtain ⟨new, hnew, hpnew⟩ := hp.ok hq
      obtain ⟨ran, stops, hran, hstops, hkmore⟩ := (hk a).error h
      refine ⟨new ++ ran, stops, List.forall_mem_append.2 ⟨hnew, hran⟩, hstops, fun h => ?_⟩
      rw [bind_ok (hpnew h), hkmore]
      simp

theorem blaming (line : Int) (hp : Follows p q) : Follows (Traced.blaming line p) (Exec.blaming line q) where
  ok {s b t} h := by
    cases hq : q s with
    | error e u => rw [Exec.blaming_error hq] at h; cases h
    | ok a u =>
      rw [Exec.blaming_ok hq] at h
      cases h
      obtain ⟨new, hnew, hpnew⟩ := hp.ok hq
      exact ⟨new, hnew, fun h => by simp only [Traced.blaming, hpnew]⟩
  error {s e t} h := by
    cases hq : q s with
    | ok a u => rw [Exec.blaming_ok hq] at h; cases h
    | error e' u =>
      rw [Exec.blaming_error hq] at h
      cases h
      obtain ⟨ran, stops, hran, hstops, hpnew⟩ := hp.error hq
      exact ⟨ran, stops, hran, hstops, fun h => by simp only [Traced.blaming, hpnew]⟩

theorem within (chain : Chain) (hp : Follows p q) : Follows (Traced.within chain p) (Exec.within chain q) where
  ok {s b t} h := by
    cases hq : q { s with chain } with
    | error e u => rw [Exec.within_error hq] at h; cases h
    | ok a u =>
      rw [Exec.within_ok hq] at h
      cases h
      obtain ⟨new, hnew, hpnew⟩ := hp.ok hq
      exact ⟨new, hnew, fun h => by simp only [Traced.within, hpnew]⟩
  error {s e t} h := by
    cases hq : q { s with chain } with
    | ok a u => rw [Exec.within_ok hq] at h; cases h
    | error e' u =>
      rw [Exec.within_error hq] at h
      cases h
      obtain ⟨ran, stops, hran, hstops, hpnew⟩ := hp.error hq
      exact ⟨ran, stops, hran, hstops, fun h => by simp only [Traced.within, hpnew]⟩

theorem marked_error (j : Node) (mark : α → Store → Moment) (hp : Follows p q) {s t : Store} {e : Stop}
    (hq : q s = .error e t) : ∃ ran stops, (∀ m ∈ ran, m.isStop = false) ∧ (∀ m ∈ stops, m.isStop = true) ∧
      ∀ h, Traced.marked j mark p (s, h) = .error e (t, h ++ (ran ++ (stops ++ [.stopped j e t]))) := by
  obtain ⟨ran, stops, hran, hstops, hpnew⟩ := hp.error hq
  refine ⟨.came j s :: ran, stops, List.forall_mem_cons.2 ⟨rfl, hran⟩, hstops, fun h => ?_⟩
  simp [Traced.marked, hpnew]

theorem marked (j : Node) {mark : α → Store → Moment} (hmark : ∀ a s, (mark a s).isStop = false)
    (hp : Follows p q) : Follows (Traced.marked j mark p) q where
  ok {s a t} hq := by
    obtain ⟨new, hnew, hpnew⟩ := hp.ok hq
    refine ⟨.came j s :: new ++ [mark a t], ?_, fun h => by simp [Traced.marked, hpnew]⟩
    simp only [List.cons_append, List.forall_mem_cons, List.forall_mem_append, List.not_mem_nil,
      IsEmpty.forall_iff, implies_true, and_true]
    exact ⟨rfl, hnew, hmark a t⟩
  error {s e t} hq := by
    obtain ⟨ran, stops, hran, hstops, hmarked⟩ := hp.marked_error j mark hq
    exact ⟨ran, _, hran, List.forall_mem_append.2 ⟨hstops, by simp [Moment.isStop]⟩, hmarked⟩

theorem passes {test : Traced Bool} {test' : Exec Bool} {body : Traced Outcome} {body' : Exec Outcome}
    {step : Traced Unit} {step' : Exec Unit} (htest : Follows test test') (hbody : Follows body body')
    (hstep : Follows step step') (n : Nat) :
    Follows (Traced.passes test body step n) (Exec.passes test' body' step' n) := by
  induction n with
  | zero => exact act Exec.endless
  | succ n ih =>
    rw [Exec.passes_succ]
    refine htest.bind fun go => ?_
    cases go with
    | false => exact .pure _
    | true =>
      refine hbody.bind fun o => ?_
      cases o with
      | broken | returned => exact .pure _
      | normal | continued => exact hstep.bind fun _ => ih

end Follows

namespace Tracer

structure Follows (m : Tracer) (m' : Evaluator) : Prop where
  addressing : m'.addressing = .byDistance
  limit : m'.limit = m.limit
  eval : ∀ e, LoxLang.Follows (m.eval e) (m'.eval e)
  exec : ∀ t, LoxLang.Follows (m.exec t) (m'.exec t)

namespace Follows

variable {m : Tracer} {m' : Evaluator}

theorem evalAll (h : m.Follows m') (es : List Expr) : LoxLang.Follows (m.evalAll es) (m'.evalAll es) := by
  induction es with
  | nil => exact .pure _
  | cons e es ih => exact (h.eval e).bind fun _ => ih.bind fun _ => .pure _

theorem sequence (h : m.Follows m') (ss : List Stmt) : LoxLang.Follows (m.sequence ss) (m'.sequence ss) := by
  induction ss with
  | nil => exact .pure _
  | cons t ts ih =>
    refine (h.exec t).bind fun o => ?_
    cases o with
    | normal => exact ih
    | _ => exact .pure _

theorem block (h : m.Follows m') (contents : Bindings Value) (outer : Chain) (ss : List Stmt) :
    LoxLang.Follows (m.block contents outer ss) (m'.block contents outer ss) :=
  (LoxLang.Follows.act _).bind fun chain => (h.sequence ss).within chain

theorem invoke (h : m.Follows m') (r : Routine) (args : List Value) :
    LoxLang.Follows (m.invoke r args) (m'.invoke r args) :=
  (h.block _ _ _).bind fun _ => (LoxLang.Follows.act get).bind fun _ => .pure _

theorem instantiate (h : m.Follows m') (c : Class) (args : List Value) :
    LoxLang.Follows (m.instantiate c args) (m'.instantiate c args) := by
  refine (LoxLang.Follows.act _).bind fun self => ?_
  cases c.initializer? with
  | none => exact .pure _
  | some r => exact (LoxLang.Follows.act _).bind fun bound => (h.invoke bound args).bind fun _ => .pure _

theorem apply (h : m.Follows m') (callee : Value) (args : List Value) (line : Int) :
    LoxLang.Follows (m.apply callee args line) (m'.apply callee args line) := by
  have hchecked : ∀ arity p q, LoxLang.Follows p q → LoxLang.Follows (checked arity args line p)
      (if args.length = arity then Exec.blaming line q
        else Exec.fault (.wrongCount arity args.length) line) := by
    intro arity p q hp
    unfold checked
    split
    · exact hp.blaming line
    · exact .act _
  unfold Tracer.apply Evaluator.apply
  cases callee with
  | native n => exact hchecked _ _ _ (.act _)
  | function _ r => exact hchecked _ _ _ (h.invoke r args)
  | classDef _ c => exact hchecked _ _ _ (h.instantiate c args)
  | _ => exact .act _

theorem evalRule (h : m.Follows m') (e : Expr) : LoxLang.Follows (m.evalRule e) (m'.evalRule e) := by
  cases e with
  | literal => exact .pure _
  | ref | self =>
    simp only [Evaluator.evalRule, h.addressing]
    exact .act _
  | assign =>
    simp only [Evaluator.evalRule, h.addressing]
    exact (h.eval _).bind fun _ => (LoxLang.Follows.act _).bind fun _ => .pure _
  | group => exact h.eval _
  | unary => exact (h.eval _).bind fun _ => .act _
  | binary => exact (h.eval _).bind fun _ => (h.eval _).bind fun _ => .act _
  | logical =>
    refine (h.eval _).bind fun a => ?_
    split
    · exact .pure _
    · exact h.eval _
  | ternary =>
    refine (h.eval _).bind fun v => ?_
    cases v with
    | bool b =>
      cases b with
      | true => exact h.eval _
      | false => exact h.eval _
    | _ => exact .act _
  | call => exact (h.eval _).bind fun _ => (h.evalAll _).bind fun _ => h.apply _ _ _
  | property => exact (h.eval _).bind fun _ => .act _
  | setProperty =>
    refine (h.eval _).bind fun v => ?_
    cases v with
    | object => exact (h.eval _).bind fun _ => (LoxLang.Follows.act _).bind fun _ => .pure _
    | _ => exact .act _
  | function => exact (LoxLang.Follows.act _).bind fun _ => (LoxLang.Follows.act get).bind fun _ => .pure _
  | list => exact (h.evalAll _).bind fun _ => .act _
  | ofStmt => exact (h.exec _).bind fun _ => .pure _
  | stub =>
    unfold Tracer.evalRule Evaluator.evalRule
    exact .act _

theorem execRule (h : m.Follows m') (t : Stmt) : LoxLang.Follows (m.execRule t) (m'.execRule t) := by
  have hact : ∀ {α : Type} (p : Exec α) (o : Outcome),
      LoxLang.Follows (do let _ ← act p; pure o) (do let _ ← p; pure o) :=
    fun p _ => (LoxLang.Follows.act p).bind fun _ => .pure _
  cases t with
  | expression | ofExpr => exact (h.eval _).bind fun _ => .pure _
  | print => exact (h.eval _).bind fun _ => (LoxLang.Follows.act _).bind fun _ => hact _ _
  | varDecl name initial =>
    cases initial with
    | none => exact hact _ _
    | some e => exact (h.eval _).bind fun _ => hact _ _
  | funDecl =>
    exact (LoxLang.Follows.act _).bind fun _ => (LoxLang.Follows.act get).bind fun _ => hact _ _
  | classDecl =>
    exact (LoxLang.Follows.act _).bind fun _ => (LoxLang.Follows.act _).bind fun _ =>
      (LoxLang.Follows.act get).bind fun _ => hact _ _
  | block => exact (LoxLang.Follows.act get).bind fun _ => h.block _ _ _
  | ifThen c y no =>
    refine (h.eval _).bind fun v => ?_
    split
    · exact h.exec _
    · cases no with
      | none => exact .pure _
      | some n => exact h.exec _
  | whileLoop c body step =>
    simp only [Evaluator.execRule, h.limit]
    have htest : LoxLang.Follows (do return (← m.eval c).truthy) (do return (← m'.eval c).truthy) :=
      (h.eval c).bind fun _ => .pure _
    cases step with
    | none => exact htest.passes (h.exec body) (.pure ()) _
    | some s => exact htest.passes (h.exec body) ((h.exec s).bind fun _ => .pure ()) _
  | ret keyword value =>
    cases value with
    | none => exact .pure _
    | some e => exact (h.eval e).bind fun _ => .pure _
  | breakLoop | continueLoop => exact .pure _

end Follows

end Tracer

theorem trace_follows (n : Nat) :
    Tracer.Follows ⟨n, traceEval n, traceExec n⟩ ⟨.byDistance, n, evaluate .byDistance n, execute .byDistance n⟩ := by
  induction n with
  | zero =>
    refine ⟨rfl, rfl, fun e => ?_, fun t => ?_⟩
    · simp only [traceEval, evaluate]
      exact (Follows.act _).marked _ fun _ _ => rfl
    · simp only [traceExec, execute]
      exact (Follows.act _).marked _ fun _ _ => rfl
  | succ n ih =>
    refine ⟨rfl, rfl, fun e => ?_, fun t => ?_⟩
    · simp only [traceEval, evaluate]
      exact (ih.evalRule e).marked _ fun _ _ => rfl
    · simp only [traceExec, execute]
      exact (ih.execRule t).marked _ fun _ _ => rfl

theorem traceExec_error {n : Nat} {t : Stmt} {s u : Store} {e : Stop} (h : execute .byDistance n t s = .error e u) :
    ∃ ran stops, (∀ m ∈ ran, m.isStop = false) ∧ (∀ m ∈ stops, m.isStop = true) ∧
      ∀ past, traceExec n t (s, past) = .error e (u, past ++ (ran ++ (stops ++ [.stopped (.stmt t) e u]))) := by
  cases n with
  | zero =>
    simp only [traceExec, execute] at h ⊢
    exact (Follows.act _).marked_error _ _ h
  | succ n =>
    simp only [traceExec, execute] at h ⊢
    exact ((trace_follows n).execRule t).marked_error _ _ h

theorem traceProgram_follows (fuel : Nat) (ss : List Stmt) :
    Follows (traceProgram fuel ss) (runProgram .byDistance fuel ss) := by
  induction ss with
  | nil => exact .pure _
  | cons t ts ih => exact ((trace_follows fuel).exec t).bind fun _ => ih

theorem traceProgram_error {fuel : Nat} {ss : List Stmt} {s u : Store} {e : Stop}
    (h : runProgram .byDistance fuel ss s = .error e u) :
    ∃ ran stops, ∃ t ∈ ss, (∀ m ∈ ran, m.isStop = false) ∧ (∀ m ∈ stops, m.isStop = true) ∧
      ∀ past, traceProgram fuel ss (s, past) =
        .error e (u, past ++ (ran ++ (stops ++ [.stopped (.stmt t) e u]))) := by
  induction ss generalizing s with
  | nil => cases h
  | cons t ts ih =>
    rw [runProgram] at h
    cases ht : execute .byDistance fuel t s with
    | error e' u' =>
      rw [bind_error ht] at h
      cases h
      obtain ⟨ran, stops, hran, hstops, htraced⟩ := traceExec_error ht
      exact ⟨ran, stops, t, by simp, hran, hstops, fun past => bind_error (htraced past)⟩
    | ok o s₁ =>
      rw [bind_ok ht] at h
      obtain ⟨new, hnew, htraced⟩ := ((trace_follows fuel).exec t).ok ht
      obtain ⟨ran, stops, t', ht', hran, hstops, hrest⟩ := ih h
      refine ⟨new ++ ran, stops, t', by simp [ht'], List.forall_mem_append.2 ⟨hnew, hran⟩, hstops,
        fun past => ?_⟩
      rw [traceProgram, bind_ok (htraced past), hrest]
      simp

namespace Execution

variable {x : Execution}

theorem traced_ok {t : Store} (h : x.result = .ok () t) : (∀ m ∈ x.history, m.isStop = false) ∧
    ∀ past, traceProgram x.fuel x.statements (x.store, past) = .ok () (t, past ++ x.history) := by
  obtain ⟨new, hnew, htraced⟩ := (traceProgram_follows x.fuel x.statements).ok h
  have hhistory : x.history = new := by
    unfold history traced
    rw [htraced]
    rfl
  rw [hhistory]
  exact ⟨hnew, htraced⟩

/-- A stop passes the nodes around the one where it arises, up to a statement of the program, and nothing else
happens after it. -/
theorem traced_error {e : Stop} {u : Store} (h : x.result = .error e u) :
    (∃ ran stops, ∃ t ∈ x.statements, x.history = ran ++ (stops ++ [.stopped (.stmt t) e u]) ∧
      (∀ m ∈ ran, m.isStop = false) ∧ ∀ m ∈ stops, m.isStop = true) ∧
      ∀ past, traceProgram x.fuel x.statements (x.store, past) = .error e (u, past ++ x.history) := by
  obtain ⟨ran, stops, t, ht, hran, hstops, htraced⟩ := traceProgram_error h
  have hhistory : x.history = ran ++ (stops ++ [.stopped (.stmt t) e u]) := by
    unfold history traced
    rw [htraced]
    rfl
  rw [hhistory]
  exact ⟨⟨ran, stops, t, ht, rfl, hran, hstops⟩, htraced⟩

/-- The traced run ends as the run does. -/
theorem traced_eq (x : Execution) (past : List Moment) :
    (∀ t, x.result = .ok () t →
      traceProgram x.fuel x.statements (x.store, past) = .ok () (t, past ++ x.history)) ∧
    ∀ e t, x.result = .error e t →
      traceProgram x.fuel x.statements (x.store, past) = .error e (t, past ++ x.history) :=
  ⟨fun _ h => (traced_ok h).2 past, fun _ _ h => (traced_error h).2 past⟩

end Execution

end LoxLang
