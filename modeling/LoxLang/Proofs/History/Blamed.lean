import LoxLang.Proofs.Running.Faults
import LoxLang.Proofs.Sessions.Resumed

namespace LoxLang

open Stopping Traced

/-- The line of the token, or of the selector, that a node's own faults are blamed on. -/
def Expr.line? : Expr → Option Int
  | .ref name _ | .self name _ | .assign name _ _ | .property _ name | .setProperty _ name _ => name.line
  | .unary op _ | .binary _ op _ | .logical _ op _ => op.line
  | .ternary _ _ _ line => line
  | .call _ paren _ => paren.line
  | _ => none

def Value.arity? : Value → Option Nat
  | .native n => n.arity
  | .function _ r => r.arity
  | .classDef _ c => c.arity
  | _ => none

/-- A node itself raises a fault: what it needs of the nodes below it has ended, and the next that it does faults. A
call does so when it refuses its callee or the number of arguments, and when the callee is a native function that
faults. -/
inductive Raises (m : Evaluator) : Expr → Store → Fault → Store → Prop
  | ref {name : Token} {hops : Option Nat} {s t : Store} {f : Fault}
    (h : m.addressing.read name hops s = .error (.fault f) t) : Raises m (.ref name hops) s f t
  | self {keyword : Token} {hops : Option Nat} {s t : Store} {f : Fault}
    (h : m.addressing.read keyword hops s = .error (.fault f) t) : Raises m (.self keyword hops) s f t
  | assign {name : Token} {hops : Option Nat} {e : Expr} {v : Value} {s t u : Store} {f : Fault}
    (he : m.eval e s = .ok v t) (h : m.addressing.write name hops v t = .error (.fault f) u) :
    Raises m (.assign name hops e) s f u
  | unary {op : Token} {e : Expr} {v : Value} {s t u : Store} {f : Fault} (he : m.eval e s = .ok v t)
    (h : v.unary op t = .error (.fault f) u) : Raises m (.unary op e) s f u
  | binary {l r : Expr} {op : Token} {a b : Value} {s t u w : Store} {f : Fault} (hl : m.eval l s = .ok a t)
    (hr : m.eval r t = .ok b u) (h : Value.binary op a b u = .error (.fault f) w) : Raises m (.binary l op r) s f w
  | ternary {c y n : Expr} {line : Int} {v : Value} {s t u : Store} {f : Fault} (hc : m.eval c s = .ok v t)
    (hv : ∀ b, v ≠ .bool b)
    (h : (do Exec.fault (.badSelector (← Exec.text v)) line : Exec Value) t = .error (.fault f) u) :
    Raises m (.ternary c y n line) s f u
  | refused {callee : Expr} {paren : Token} {args : List Expr} {v : Value} {vs : List Value} {s t u w : Store}
    {f : Fault} (hcallee : m.eval callee s = .ok v t) (hargs : m.evalAll args t = .ok vs u)
    (harity : v.arity? ≠ some vs.length) (h : m.apply v vs paren.line u = .error (.fault f) w) :
    Raises m (.call callee paren args) s f w
  | native {callee : Expr} {paren : Token} {args : List Expr} {n : Native} {vs : List Value} {s t u w : Store}
    {raw f : Fault} (hcallee : m.eval callee s = .ok (.native n) t) (hargs : m.evalAll args t = .ok vs u)
    (harity : vs.length = n.arity) (hraw : n.apply vs u = .error (.fault raw) w)
    (h : m.apply (.native n) vs paren.line u = .error (.fault f) w) : Raises m (.call callee paren args) s f w
  | property {o : Expr} {name : Token} {v : Value} {s t u : Store} {f : Fault} (ho : m.eval o s = .ok v t)
    (h : Evaluator.property v name t = .error (.fault f) u) : Raises m (.property o name) s f u
  | setProperty {o e : Expr} {name : Token} {v : Value} {s t u : Store} {f : Fault} (ho : m.eval o s = .ok v t)
    (hv : ∀ id c, v ≠ .object id c) (h : (Exec.fault .noFields name.line : Exec Value) t = .error (.fault f) u) :
    Raises m (.setProperty o name e) s f u

namespace Evaluator

variable {m : Evaluator} {args : List Value} {line : Int} {s t : Store} {f : Fault}

theorem apply_native {n : Native} {raw : Fault} (harity : args.length = n.arity)
    (hraw : n.apply args s = .error (.fault raw) t) :
    m.apply (.native n) args line s = .error (.fault ⟨raw.cause, some line⟩) t := by
  have hline : raw.line = none := Exec.Faults.native (P := (· = none)) n harity rfl s raw t hraw
  obtain ⟨cause, _⟩ := raw
  cases hline
  unfold apply
  simp only [if_pos harity]
  exact Exec.blaming_error hraw

theorem apply_refused {v : Value} (harity : v.arity? ≠ some args.length) :
    Exec.Faults (· = some line) (m.apply v args line) := by
  have hcount : ∀ {arity : Nat} {p : Exec Value}, some arity ≠ some args.length →
      Exec.Faults (· = some line) (if args.length = arity then Exec.blaming line p
        else Exec.fault (.wrongCount arity args.length) line) := by
    intro arity p hne
    rw [if_neg fun h => hne (congrArg some h.symm)]
    exact .fault _ rfl
  unfold apply
  cases v with
  | native | function | classDef => exact hcount harity
  | _ => exact .fault _ rfl

end Evaluator

theorem Raises.line {m : Evaluator} {e : Expr} {s t : Store} {f : Fault} (h : Raises m e s f t)
    (haddressing : m.addressing = .byDistance) : ∃ line, e.line? = some line ∧ f.line = some line := by
  have hby : ∀ {α : Type} {line : Int} {p : Exec α} {s t : Store}, Exec.Faults (· = some line) p →
      p s = .error (.fault f) t → ∃ l, some line = some l ∧ f.line = some l :=
    fun hp hs => ⟨_, rfl, hp _ _ _ hs⟩
  cases h with
  | ref h | self h => exact hby (.read _ rfl) (haddressing ▸ h)
  | assign _ h => exact hby (.write _ _ rfl) (haddressing ▸ h)
  | unary _ h => exact hby (.unary _ rfl) h
  | binary _ _ h => exact hby (.binary _ _ rfl) h
  | ternary _ _ h => exact hby ((Exec.Faults.text _).bind fun _ => .fault _ rfl) h
  | refused _ _ harity h => exact hby (Evaluator.apply_refused harity) h
  | native _ _ harity hraw h =>
    rw [Evaluator.apply_native harity hraw] at h
    cases h
    exact ⟨_, rfl, rfl⟩
  | property _ h => exact hby (.property _ rfl) h
  | setProperty _ _ h => exact hby (.fault _ rfl) h

/-- How a fault comes out of what has happened: a node comes and, when what it needs below has ended, raises the
fault, which stops every node around as it is. -/
inductive Arises (e : Expr) (f : Fault) : List Moment → Prop
  | intro (before : List Moment) {below stops : List Moment} {s t : Store} (n : Nat) (hraises : Raises (.atDepth n) e s f t)
    (hbefore : ∀ m ∈ before, m.isStop = false) (hbelow : ∀ m ∈ below, m.isStop = false)
    (hstops : ∀ m ∈ stops, ∃ j u, m = .stopped j (.fault f) u) :
    Arises e f (before ++ .came (.expr e) s :: (below ++ .stopped (.expr e) (.fault f) t :: stops))

namespace Arises

variable {e : Expr} {f : Fault} {new : List Moment}

theorem after {before : List Moment} (h : Arises e f new) (hbefore : ∀ m ∈ before, m.isStop = false) :
    Arises e f (before ++ new) := by
  obtain ⟨past, n, hraises, hb, hbelow, hstops⟩ := h
  rw [← List.append_assoc]
  exact ⟨before ++ past, n, hraises, List.forall_mem_append.2 ⟨hbefore, hb⟩, hbelow, hstops⟩

theorem passing (j : Node) (s t : Store) (h : Arises e f new) :
    Arises e f (.came j s :: (new ++ [.stopped j (.fault f) t])) := by
  obtain ⟨before, n, hraises, hbefore, hbelow, hstops⟩ := h
  have hlonger := Arises.intro (.came j s :: before) n hraises (List.forall_mem_cons.2 ⟨rfl, hbefore⟩) hbelow
    (List.forall_mem_append.2 ⟨hstops, by simp⟩ : ∀ m ∈ _ ++ [Moment.stopped j (.fault f) t], _)
  simpa using hlonger

theorem line (h : Arises e f new) : ∃ line, e.line? = some line ∧ f.line = some line := by
  obtain ⟨-, n, hraises, -, -, -⟩ := h
  exact hraises.line rfl

end Arises

variable {α β : Type}

theorem Traced.blaming_act (line : Int) (q : Exec α) :
    Traced.blaming line (act q) = act (Exec.blaming line q) := by
  funext x
  unfold Traced.blaming act
  cases hq : q x.1 with
  | ok a s => simp only [Exec.blaming_ok hq]
  | error e s => simp only [Exec.blaming_error hq]

theorem Exec.of_blaming_fault {line : Int} {q : Exec α} {s t : Store} {f : Fault}
    (h : Exec.blaming line q s = .error (.fault f) t) : ∃ raw, q s = .error (.fault raw) t := by
  cases hq : q s with
  | ok a u => rw [blaming_ok hq] at h; cases h
  | error e u =>
    rw [blaming_error hq] at h
    obtain raw | d | _ := e
    · obtain ⟨-, rfl⟩ := EStateM.Result.error.inj h
      exact ⟨raw, rfl⟩
    · cases h
    · cases h

/-- A traced action whose faults are accounted for: each arises at a node within the action, or it is raised by the
action itself, and then `own` says how. -/
structure Accounts (own : Store → Fault → Store → Prop) (p : Traced α) (q : Exec α) : Prop where
  follows : Follows p q
  fault : ∀ {s f t}, q s = .error (.fault f) t → ∃ new, (∀ h, p (s, h) = .error (.fault f) (t, h ++ new)) ∧
    ((own s f t ∧ ∀ m ∈ new, m.isStop = false) ∨ ∃ e, Arises e f new)

abbrev Settled (p : Traced α) (q : Exec α) : Prop := Accounts (fun _ _ _ => False) p q

namespace Accounts

variable {own : Store → Fault → Store → Prop} {p : Traced α} {q : Exec α}

theorem act (h : ∀ {s f t}, q s = .error (.fault f) t → own s f t) : Accounts own (Traced.act q) q where
  follows := .act q
  fault hq := ⟨[], fun h => by simp [Traced.act, hq], .inl ⟨h hq, by simp⟩⟩

theorem quiet (h : Exec.Faults (fun _ => False) q) : Accounts own (Traced.act q) q :=
  act fun hq => (h _ _ _ hq).elim

theorem pure (a : α) : Accounts own (Pure.pure a) (Pure.pure a) where
  follows := .pure a
  fault hq := nomatch hq

theorem bind {k : α → Traced β} {l : α → Exec β} (hp : Accounts own p q)
    (hk : ∀ a, Accounts (fun t f u => ∀ s, q s = .ok a t → own s f u) (k a) (l a)) :
    Accounts own (p >>= k) (q >>= l) where
  follows := hp.follows.bind fun a => (hk a).follows
  fault {s f t} h := by
    cases hq : q s with
    | error e u =>
      rw [bind_error hq] at h
      cases h
      obtain ⟨new, hnew, horigin⟩ := hp.fault hq
      exact ⟨new, fun past => bind_error (hnew past), horigin⟩
    | ok a u =>
      rw [bind_ok hq] at h
      obtain ⟨before, hbefore, hpast⟩ := hp.follows.ok hq
      obtain ⟨new, hnew, horigin⟩ := (hk a).fault h
      refine ⟨before ++ new, fun past => ?_, ?_⟩
      · rw [bind_ok (hpast past), hnew, List.append_assoc]
      · obtain ⟨hown, hquiet⟩ | ⟨e, he⟩ := horigin
        · exact .inl ⟨hown s hq, List.forall_mem_append.2 ⟨hbefore, hquiet⟩⟩
        · exact .inr ⟨e, he.after hbefore⟩

theorem blaming (line : Int) (hp : Settled p q) : Accounts own (Traced.blaming line p) (Exec.blaming line q) where
  follows := hp.follows.blaming line
  fault {s f t} h := by
    cases hq : q s with
    | ok a u => rw [Exec.blaming_ok hq] at h; cases h
    | error e u =>
      rw [Exec.blaming_error hq] at h
      obtain f' | d | _ := e
      · obtain ⟨new, hnew, ⟨⟨⟩, -⟩ | ⟨e, he⟩⟩ := hp.fault hq
        obtain ⟨l, -, hl⟩ := he.line
        obtain ⟨cause, _⟩ := f'
        cases hl
        cases h
        exact ⟨new, fun past => by simp only [Traced.blaming, hnew, Stop.blamed], .inr ⟨e, he⟩⟩
      · cases h
      · cases h

theorem within (chain : Chain) (hp : Settled p q) :
    Accounts own (Traced.within chain p) (Exec.within chain q) where
  follows := hp.follows.within chain
  fault {s f t} h := by
    cases hq : q { s with chain } with
    | ok a u => rw [Exec.within_ok hq] at h; cases h
    | error e u =>
      rw [Exec.within_error hq] at h
      cases h
      obtain ⟨new, hnew, ⟨⟨⟩, -⟩ | horigin⟩ := hp.fault hq
      exact ⟨new, fun past => by simp only [Traced.within, hnew], .inr horigin⟩

theorem passes {test : Traced Bool} {test' : Exec Bool} {body : Traced Outcome} {body' : Exec Outcome}
    {step : Traced Unit} {step' : Exec Unit} (htest : ∀ {own}, Accounts own test test')
    (hbody : ∀ {own}, Accounts own body body') (hstep : ∀ {own}, Accounts own step step') (n : Nat) :
    Accounts own (Traced.passes test body step n) (Exec.passes test' body' step' n) := by
  induction n generalizing own with
  | zero => exact quiet .endless
  | succ n ih =>
    rw [Exec.passes_succ]
    refine bind htest fun go => ?_
    cases go with
    | false => exact pure _
    | true =>
      refine bind hbody fun o => ?_
      cases o with
      | broken | returned => exact pure _
      | normal | continued => exact bind hstep fun _ => ih

theorem marked_expr {e : Expr} {n : Nat} {mark : α → Store → Moment} (hmark : ∀ a s, (mark a s).isStop = false)
    (hp : Accounts (Raises (.atDepth n) e) p q) : Accounts own (Traced.marked (.expr e) mark p) q where
  follows := hp.follows.marked _ hmark
  fault {s f t} hq := by
    obtain ⟨new, hnew, horigin⟩ := hp.fault hq
    refine ⟨.came (.expr e) s :: (new ++ [.stopped (.expr e) (.fault f) t]),
      fun past => by simp [Traced.marked, hnew], .inr ?_⟩
    obtain ⟨hraises, hquiet⟩ | ⟨e', he'⟩ := horigin
    · exact ⟨e, .intro [] n hraises (by simp) hquiet (by simp)⟩
    · exact ⟨e', he'.passing _ _ _⟩

theorem marked_stmt {t : Stmt} {mark : α → Store → Moment} (hmark : ∀ a s, (mark a s).isStop = false)
    (hp : Settled p q) : Accounts own (Traced.marked (.stmt t) mark p) q where
  follows := hp.follows.marked _ hmark
  fault {s f u} hq := by
    obtain ⟨new, hnew, ⟨⟨⟩, -⟩ | ⟨e, he⟩⟩ := hp.fault hq
    refine ⟨_, fun past => ?_, .inr ⟨e, he.passing (.stmt t) s u⟩⟩
    simp [Traced.marked, hnew]

end Accounts

namespace Tracer

structure Settled (m : Tracer) (m' : Evaluator) : Prop where
  addressing : m'.addressing = .byDistance
  limit : m'.limit = m.limit
  eval : ∀ {own} e, Accounts own (m.eval e) (m'.eval e)
  exec : ∀ {own} t, Accounts own (m.exec t) (m'.exec t)

namespace Settled

variable {m : Tracer} {m' : Evaluator} {own : Store → Fault → Store → Prop} (h : m.Settled m')

include h

theorem evalAll (es : List Expr) : Accounts own (m.evalAll es) (m'.evalAll es) := by
  induction es generalizing own with
  | nil => exact .pure _
  | cons e es ih => exact .bind (h.eval e) fun _ => .bind ih fun _ => .pure _

theorem sequence (ss : List Stmt) : Accounts own (m.sequence ss) (m'.sequence ss) := by
  induction ss generalizing own with
  | nil => exact .pure _
  | cons t ts ih =>
    refine .bind (h.exec t) fun o => ?_
    cases o with
    | normal => exact ih
    | _ => exact .pure _

theorem block (contents : Bindings Value) (outer : Chain) (ss : List Stmt) :
    Accounts own (m.block contents outer ss) (m'.block contents outer ss) :=
  .bind (.quiet (.modifyGet _)) fun chain => .within chain (h.sequence ss)

theorem invoke (r : Routine) (args : List Value) : Accounts own (m.invoke r args) (m'.invoke r args) :=
  .bind (h.block _ _ _) fun _ => .bind (.quiet .look) fun _ => .pure _

theorem instantiate (c : Class) (args : List Value) :
    Accounts own (m.instantiate c args) (m'.instantiate c args) := by
  refine .bind (.quiet (.modifyGet _)) fun self => ?_
  cases c.initializer? with
  | none => exact .pure _
  | some r => exact .bind (.quiet (.bindTo _ _)) fun bound => .bind (h.invoke bound args) fun _ => .pure _

theorem apply {callee : Value} {args : List Value} {line : Int}
    (hrefused : callee.arity? ≠ some args.length → ∀ {s f t},
      m'.apply callee args line s = .error (.fault f) t → own s f t)
    (hnative : ∀ n raw, callee = .native n → args.length = n.arity → ∀ {s f t},
      n.apply args s = .error (.fault raw) t → m'.apply callee args line s = .error (.fault f) t → own s f t) :
    Accounts own (m.apply callee args line) (m'.apply callee args line) := by
  have hchecked : ∀ {arity : Nat} {p : Traced Value} {q : Exec Value}, callee.arity? = some arity →
      m'.apply callee args line = (if args.length = arity then Exec.blaming line q
        else Exec.fault (.wrongCount arity args.length) line) →
      (args.length = arity → Accounts own (Traced.blaming line p) (Exec.blaming line q)) →
      Accounts own (checked arity args line p) (m'.apply callee args line) := by
    intro arity p q harity hcall hp
    unfold checked
    by_cases hcount : args.length = arity
    · rw [hcall, if_pos hcount, if_pos hcount]
      exact hp hcount
    · rw [if_neg hcount] at hcall
      rw [if_neg hcount, hcall]
      exact .act fun hs => hrefused (by simp [harity, Ne.symm hcount]) (hcall ▸ hs)
  unfold Tracer.apply
  cases callee with
  | native n =>
    refine hchecked rfl rfl fun hcount => ?_
    rw [Traced.blaming_act]
    refine .act fun {s f t} hs => ?_
    obtain ⟨raw, hraw⟩ := Exec.of_blaming_fault hs
    refine hnative n raw rfl hcount hraw ?_
    unfold Evaluator.apply
    simp only [if_pos hcount, hs]
  | function _ r => exact hchecked rfl rfl fun _ => .blaming line (h.invoke r args)
  | classDef _ c => exact hchecked rfl rfl fun _ => .blaming line (h.instantiate c args)
  | _ => exact .act (hrefused (by simp [Value.arity?]))

theorem evalRule (e : Expr) : Accounts (Raises m' e) (m.evalRule e) (m'.evalRule e) := by
  cases e with
  | literal => exact .pure _
  | ref =>
    simp only [Evaluator.evalRule, h.addressing]
    exact .act fun hs => .ref (h.addressing ▸ hs)
  | self =>
    simp only [Evaluator.evalRule, h.addressing]
    exact .act fun hs => .self (h.addressing ▸ hs)
  | assign =>
    simp only [Evaluator.evalRule, h.addressing]
    exact .bind (h.eval _) fun _ => .bind (.act fun hs _ he => .assign he (h.addressing ▸ hs)) fun _ => .pure _
  | group => exact h.eval _
  | unary => exact .bind (h.eval _) fun _ => .act fun hs _ he => .unary he hs
  | binary => exact .bind (h.eval _) fun _ => .bind (h.eval _) fun _ => .act fun hs _ hr _ hl => .binary hl hr hs
  | logical =>
    refine .bind (h.eval _) fun a => ?_
    split
    · exact .pure _
    · exact h.eval _
  | ternary =>
    refine .bind (h.eval _) fun v => ?_
    cases v with
    | bool b =>
      cases b with
      | true => exact h.eval _
      | false => exact h.eval _
    | _ => exact .act fun hs _ hc => .ternary hc (by simp) hs
  | call =>
    refine .bind (h.eval _) fun v => .bind (h.evalAll _) fun vs => h.apply ?_ ?_
    · exact fun harity _ _ _ hs _ hargs _ hcallee => .refused hcallee hargs harity hs
    · rintro n raw rfl hcount s f t hraw hs _ hargs _ hcallee
      exact .native hcallee hargs hcount hraw hs
  | property => exact .bind (h.eval _) fun _ => .act fun hs _ ho => .property ho hs
  | setProperty =>
    refine .bind (h.eval _) fun v => ?_
    cases v with
    | object => exact .bind (h.eval _) fun _ => .bind (.quiet (.modifyGet _)) fun _ => .pure _
    | _ => exact .act fun hs _ ho => .setProperty ho (by simp) hs
  | function => exact .bind (.quiet (.modifyGet _)) fun _ => .bind (.quiet .look) fun _ => .pure _
  | list => exact .bind (h.evalAll _) fun _ => .quiet (.modifyGet _)
  | ofStmt => exact .bind (h.exec _) fun _ => .pure _
  | stub =>
    unfold Tracer.evalRule Evaluator.evalRule
    exact .quiet (.defect _)

theorem execRule (t : Stmt) : Accounts own (m.execRule t) (m'.execRule t) := by
  have hact : ∀ {α : Type} {own : Store → Fault → Store → Prop} {p : Exec α} (o : Outcome),
      Exec.Faults (fun _ => False) p → Accounts own (do let _ ← act p; pure o) (do let _ ← p; pure o) :=
    fun _ hp => .bind (.quiet hp) fun _ => .pure _
  cases t with
  | expression | ofExpr => exact .bind (h.eval _) fun _ => .pure _
  | print => exact .bind (h.eval _) fun _ => .bind (.quiet (.text _)) fun _ => hact _ (.modifyGet _)
  | varDecl name initial =>
    cases initial with
    | none => exact hact _ (.define _ _)
    | some e => exact .bind (h.eval _) fun _ => hact _ (.define _ _)
  | funDecl =>
    exact .bind (.quiet (.modifyGet _)) fun _ => .bind (.quiet .look) fun _ => hact _ (.define _ _)
  | classDecl =>
    exact .bind (.quiet (.define _ _)) fun _ => .bind (.quiet (.modifyGet _)) fun _ =>
      .bind (.quiet .look) fun _ => hact _ (.define _ _)
  | block => exact .bind (.quiet .look) fun _ => h.block _ _ _
  | ifThen c y no =>
    refine .bind (h.eval _) fun v => ?_
    split
    · exact h.exec _
    · cases no with
      | none => exact .pure _
      | some n => exact h.exec _
  | whileLoop c body step =>
    simp only [Evaluator.execRule, h.limit]
    have htest : ∀ {own}, Accounts own (do return (← m.eval c).truthy) (do return (← m'.eval c).truthy) :=
      .bind (h.eval c) fun _ => .pure _
    cases step with
    | none => exact .passes htest (h.exec body) (.pure ()) _
    | some s => exact .passes htest (h.exec body) (.bind (h.exec s) fun _ => .pure ()) _
  | ret keyword value =>
    cases value with
    | none => exact .pure _
    | some e => exact .bind (h.eval e) fun _ => .pure _
  | breakLoop | continueLoop => exact .pure _

end Settled

end Tracer

theorem trace_settled (n : Nat) : Tracer.Settled ⟨n, traceEval n, traceExec n⟩ (.atDepth n) := by
  induction n with
  | zero =>
    refine ⟨rfl, rfl, fun e => ?_, fun t => ?_⟩
    · simp only [Evaluator.atDepth, traceEval, evaluate]
      exact .marked_expr (n := 0) (fun _ _ => rfl) (.quiet .endless)
    · simp only [Evaluator.atDepth, traceExec, execute]
      exact .marked_stmt (fun _ _ => rfl) (.quiet .endless)
  | succ n ih =>
    refine ⟨rfl, rfl, fun e => ?_, fun t => ?_⟩
    · simp only [Evaluator.atDepth, traceEval, evaluate]
      exact .marked_expr (fun _ _ => rfl) (ih.evalRule e)
    · simp only [Evaluator.atDepth, traceExec, execute]
      exact .marked_stmt (fun _ _ => rfl) (ih.execRule t)

theorem traceProgram_settled (fuel : Nat) (ss : List Stmt) :
    Settled (traceProgram fuel ss) (runProgram .byDistance fuel ss) := by
  suffices h : ∀ own, Accounts own (traceProgram fuel ss) (runProgram .byDistance fuel ss) from h _
  induction ss with
  | nil => exact fun _ => .pure _
  | cons t ts ih => exact fun _ => .bind ((trace_settled fuel).exec t) fun _ => ih _

theorem Execution.fault_arises {x : Execution} {f : Fault} {u : Store} (h : x.result = .error (.fault f) u) :
    ∃ e, Arises e f x.history := by
  obtain ⟨new, hnew, ⟨⟨⟩, -⟩ | horigin⟩ := (traceProgram_settled x.fuel x.statements).fault h
  have hhistory : x.history = new := by
    unfold history traced
    rw [hnew]
    rfl
  exact hhistory ▸ horigin

/-- The texts that a journal may hold: each is about the text of a program, or about a fault and its line. -/
def Journal.Lined (j : Journal) : Prop :=
  ∀ message ∈ j.messages,
    (∃ r : Report, message = "[line " ++ toString r.place.lineNumber ++ "] Error" ++ r.place.mention ++ ": " ++
      r.complaint.message) ∨
    ∃ (cause : Fault.Cause) (line : Int), message = cause.message ++ ("\n[line " ++ toString line ++ "]")

namespace Journal.Lined

variable {j : Journal}

theorem reportAll (h : j.Lined) (rs : List Report) : (j.reportAll rs).Lined := by
  unfold Journal.reportAll
  induction rs generalizing j with
  | nil => exact h
  | cons r rs ih => exact ih (List.forall_mem_append.2 ⟨h, List.forall_mem_singleton.2 (.inl ⟨r, rfl⟩)⟩)

theorem fault (h : j.Lined) (line : Int) (cause : Fault.Cause) : (j.fault (some line) cause.message).Lined :=
  List.forall_mem_append.2 ⟨h, List.forall_mem_singleton.2 (.inr ⟨cause, line, rfl⟩)⟩

end Journal.Lined

theorem Session.execute_lined (fuel : Nat) (ss : List Stmt) {s : Session} (h : s.journal.Lined) :
    (s.execute fuel ss).2.journal.Lined := by
  cases hresult : runProgram .byDistance fuel ss s.store with
  | ok _ t =>
    rw [execute_of_ok hresult]
    exact h
  | error e t =>
    obtain f | d | _ := e
    · obtain ⟨e, harises⟩ := Execution.fault_arises (x := ⟨s.store, fuel, ss⟩) hresult
      obtain ⟨line, -, hline⟩ := harises.line
      rw [execute_of_fault hresult, hline]
      exact h.fault line f.cause
    · rw [execute_of_defect hresult]
      exact h
    · rw [execute_of_endless hresult]
      exact h

theorem Command.apply_lined (c : Command) {s : Session} (h : s.journal.Lined) : (c.apply s).journal.Lined := by
  cases c with
  | run fuel interactive source =>
    rw [Command.apply]
    obtain ⟨reports, hrun, -, -, -⟩ | ⟨-, -, -, hrun⟩ | ⟨ss, -, -, -, hrun⟩ :=
      Session.treated fuel interactive source s
    · rw [hrun]
      exact h.reportAll reports
    · rw [hrun]
      exact h
    · rw [hrun]
      exact Session.execute_lined fuel ss h
  | reset => exact fun _ hmessage => absurd hmessage List.not_mem_nil
  | takeOutput => exact h
  | setClock clock => exact h

theorem Session.after_lined (commands : List Command) {s : Session} (h : s.journal.Lined) :
    (after commands s).journal.Lined := by
  induction commands generalizing s with
  | nil => exact h
  | cons c cs ih => exact ih (c.apply_lined h)

/-- Whatever came before in a session, a fault that ends a run has the line of the node that raised it, however many
nodes it stops on its way out, and is noted with that line. A native function faults without a line, and the call that
has it for its callee then gives its own. So every note of a fault in the journal of a session ends with a line. -/
theorem faults_blamed (clock : Clock) (commands : List Command) :
    let s := Session.after commands { store := { clock := clock } }
    (∀ c : Command, ∀ x ∈ c.execution? s, ∀ f u, x.result = .error (.fault f) u →
      ∃ e line, Arises e f x.history ∧ e.line? = some line ∧ f.line = some line ∧
        (c.apply s).journal = s.journal.fault (some line) f.cause.message) ∧
    (∀ n callee paren args native vs raw r t u w, evaluate .byDistance n callee r = .ok (.native native) t →
      (Evaluator.atDepth n).evalAll args t = .ok vs u → vs.length = native.arity →
        native.apply vs u = .error (.fault raw) w → raw.line = none ∧
          evaluate .byDistance (n + 1) (.call callee paren args) r = .error (.fault ⟨raw.cause, some paren.line⟩) w) ∧
    s.journal.Lined := by
  refine ⟨fun c x hx f u hfault => ?_, fun n callee paren args native vs raw r t u w hcallee hargs hcount hraw => ?_,
    Session.after_lined commands fun _ hmessage => nomatch hmessage⟩
  · obtain ⟨e, harises⟩ := Execution.fault_arises hfault
    obtain ⟨line, he, hf⟩ := harises.line
    refine ⟨e, line, harises, he, hf, ?_⟩
    cases c with
    | run fuel interactive source =>
      obtain ⟨ss, hprepared, rfl⟩ := Option.map_eq_some_iff.1 hx
      rw [Command.apply, Session.run_of_fault hprepared hfault, hf]
    | _ => cases hx
  · refine ⟨Exec.Faults.native (P := (· = none)) native hcount rfl u raw w hraw, ?_⟩
    simp only [evaluate, Evaluator.evalRule]
    rw [bind_ok hcallee]
    exact (bind_ok hargs).trans (Evaluator.apply_native hcount hraw)

end LoxLang
