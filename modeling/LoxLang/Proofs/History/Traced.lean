import LoxLang.Proofs.Running.Executions
import LoxLang.Proofs.Running.Runs

namespace LoxLang

/-- Something that happens in a run, with the store at that time. -/
inductive Moment where
  | came (j : Node) (s : Store)
  | gave (e : Expr) (v : Value) (s : Store)
  | ended (t : Stmt) (o : Outcome) (s : Store)
  | stopped (j : Node) (e : Stop) (s : Store)

namespace Moment

def store : Moment → Store
  | came _ s | gave _ _ s | ended _ _ s | stopped _ _ s => s

def isStop : Moment → Bool
  | stopped _ _ _ => true
  | _ => false

end Moment

/-- Runs on a store and the history so far, the latest moment last. -/
abbrev Traced := EStateM Stop (Store × List Moment)

namespace Traced

variable {α β : Type}

def act (p : Exec α) : Traced α := fun x =>
  match p x.1 with
  | .ok a s => .ok a (s, x.2)
  | .error e s => .error e (s, x.2)

theorem act_bind (q : Exec α) (k : α → Exec β) : act (q >>= k) = act q >>= fun a => act (k a) := by
  funext x
  unfold act
  cases hq : q x.1 with
  | ok a s => simp only [Bind.bind, EStateM.bind, hq]
  | error e s => simp only [Bind.bind, EStateM.bind, hq]

def blaming (line : Int) (p : Traced α) : Traced α := fun x =>
  match p x with
  | .ok a y => .ok a y
  | .error e y => .error (e.blamed line) y

def within (chain : Chain) (p : Traced α) : Traced α := fun x =>
  match p ({ x.1 with chain }, x.2) with
  | .ok a y => .ok a ({ y.1 with chain := x.1.chain }, y.2)
  | .error e y => .error e ({ y.1 with chain := x.1.chain }, y.2)

def passes (test : Traced Bool) (body : Traced Outcome) (step : Traced Unit) : Nat → Traced Outcome
  | 0 => act Exec.endless
  | n + 1 => do
    if ← test then
      match ← body with
      | .broken => pure .normal
      | .returned v => pure (.returned v)
      | .normal | .continued => do
        step
        passes test body step n
    else pure .normal

/-- Marks in the history that a node begins and how it ends. -/
def marked (j : Node) (mark : α → Store → Moment) (p : Traced α) : Traced α := fun x =>
  match p (x.1, x.2 ++ [.came j x.1]) with
  | .ok a y => .ok a (y.1, y.2 ++ [mark a y.1])
  | .error e y => .error e (y.1, y.2 ++ [.stopped j e y.1])

end Traced

open Traced (act)

structure Tracer where
  limit : Nat
  eval : Expr → Traced Value
  exec : Stmt → Traced Outcome

namespace Tracer

variable (m : Tracer)

def evalAll : List Expr → Traced (List Value)
  | [] => pure []
  | e :: es => do
    let v ← m.eval e
    return v :: (← evalAll es)

def sequence : List Stmt → Traced Outcome
  | [] => pure .normal
  | s :: ss => do
    match ← m.exec s with
    | .normal => sequence ss
    | o => pure o

def block (contents : Bindings Value) (outer : Chain) (ss : List Stmt) : Traced Outcome := do
  let chain ← act (Exec.pushFrame contents outer)
  Traced.within chain (m.sequence ss)

def invoke (r : Routine) (args : List Value) : Traced Value := do
  let outcome ← m.block (bindAll r.definition.params args) r.closure r.definition.body
  return r.result outcome (← act get)

def instantiate (c : Class) (args : List Value) : Traced Value := do
  let self ← act (Exec.newObject c)
  match c.initializer? with
  | none => pure self
  | some r => do
    let bound ← act (r.bindTo self)
    let _ ← m.invoke bound args
    pure self

/-- A call once the number of its arguments is checked. -/
def checked (arity : Nat) (args : List Value) (line : Int) (p : Traced Value) : Traced Value :=
  if args.length = arity then Traced.blaming line p
  else act (Exec.fault (.wrongCount arity args.length) line)

def apply (callee : Value) (args : List Value) (line : Int) : Traced Value :=
  match callee with
  | .native n => checked n.arity args line (act (n.apply args))
  | .function _ r => checked r.arity args line (m.invoke r args)
  | .classDef _ c => checked c.arity args line (m.instantiate c args)
  | _ => act (Exec.fault .notCallable line)

def evalRule : Expr → Traced Value
  | .literal v => pure (.ofLiteral v)
  | .ref name hops => act (Addressing.byDistance.read name hops)
  | .self keyword hops => act (Addressing.byDistance.read keyword hops)
  | .assign name hops e => do
    let v ← m.eval e
    act (Addressing.byDistance.write name hops v)
    pure v
  | .group e => m.eval e
  | .unary op e => do act ((← m.eval e).unary op)
  | .binary l op r => do
    let a ← m.eval l
    let b ← m.eval r
    act (Value.binary op a b)
  | .logical l op r => do
    let a ← m.eval l
    if a.truthy = decide (op.kind = .kwOr) then pure a else m.eval r
  | .ternary c y n line => do
    match ← m.eval c with
    | .bool true => m.eval y
    | .bool false => m.eval n
    | v => act (do Exec.fault (.badSelector (← Exec.text v)) line)
  | .call f paren args => do
    let callee ← m.eval f
    let vs ← m.evalAll args
    m.apply callee vs paren.line
  | .property o name => do act (Evaluator.property (← m.eval o) name)
  | .setProperty o name e => do
    match ← m.eval o with
    | .object id _ =>
      let v ← m.eval e
      act (Exec.setField id name.lexeme v)
      pure v
    | _ => act (Exec.fault .noFields name.line)
  | .function f => do
    let id ← act Exec.freshId
    return .function id ⟨none, f, (← act get).chain, false⟩
  | .list es => do
    let vs ← m.evalAll es
    act (Exec.newList vs.toArray)
  | .ofStmt s => do
    let _ ← m.exec s
    pure (.bool true)
  | .stub s => act (Exec.defect (.undispatched s))

def execRule : Stmt → Traced Outcome
  | .expression e => do
    let _ ← m.eval e
    pure .normal
  | .print e => do
    let v ← m.eval e
    act (Exec.print (← act (Exec.text v)))
    pure .normal
  | .varDecl name none => do
    act (Exec.define name.lexeme .nil)
    pure .normal
  | .varDecl name (some e) => do
    let v ← m.eval e
    act (Exec.define name.lexeme v)
    pure .normal
  | .funDecl name f => do
    let id ← act Exec.freshId
    act (Exec.define name.lexeme (.function id ⟨name.lexeme, f, (← act get).chain, false⟩))
    pure .normal
  | .classDecl name methods => do
    act (Exec.define name.lexeme .nil)
    let id ← act Exec.freshId
    let chain := (← act get).chain
    act (Exec.define name.lexeme (.classDef id ⟨name.lexeme, Evaluator.methodTable chain methods⟩))
    pure .normal
  | .block ss => do m.block ⟨[]⟩ (← act get).chain ss
  | .ifThen c y no => do
    if (← m.eval c).truthy then m.exec y
    else
      match no with
      | some n => m.exec n
      | none => pure .normal
  | .whileLoop c body step =>
    let test : Traced Bool := return (← m.eval c).truthy
    let after : Traced Unit :=
      match step with
      | some s => discard (m.exec s)
      | none => pure ()
    Traced.passes test (m.exec body) after m.limit
  | .ret _ none => pure (.returned .nil)
  | .ret _ (some e) => return .returned (← m.eval e)
  | .breakLoop _ => pure .broken
  | .continueLoop _ => pure .continued
  | .ofExpr e => do
    let _ ← m.eval e
    pure .normal

end Tracer

mutual

def traceEval : Nat → Expr → Traced Value
  | 0, e => Traced.marked (.expr e) (.gave e) (act Exec.endless)
  | n + 1, e => Traced.marked (.expr e) (.gave e)
    fun x => Tracer.evalRule ⟨n, traceEval n, traceExec n⟩ e x

def traceExec : Nat → Stmt → Traced Outcome
  | 0, t => Traced.marked (.stmt t) (.ended t) (act Exec.endless)
  | n + 1, t => Traced.marked (.stmt t) (.ended t)
    fun x => Tracer.execRule ⟨n, traceEval n, traceExec n⟩ t x

end

def traceProgram (fuel : Nat) : List Stmt → Traced Unit
  | [] => pure ()
  | t :: ts => do
    let _ ← traceExec fuel t
    traceProgram fuel ts

namespace Execution

def traced (x : Execution) : EStateM.Result Stop (Store × List Moment) Unit :=
  traceProgram x.fuel x.statements (x.store, [])

/-- All that happens when statements run. -/
def history (x : Execution) : List Moment :=
  match x.traced with
  | .ok _ y | .error _ y => y.2

end Execution

end LoxLang
