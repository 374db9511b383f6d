import LoxLang.Addressing
import LoxLang.Native
import LoxLang.Value.Operators

namespace LoxLang

inductive Outcome where
  | normal
  | returned (v : Value)
  | broken
  | continued

def Outcome.value : Outcome → Value
  | .returned v => v
  | _ => .nil

/-- The means to run what is below a node; `limit` bounds the passes of a loop. -/
structure Evaluator where
  addressing : Addressing
  limit : Nat
  eval : Expr → Exec Value
  exec : Stmt → Exec Outcome

/-- An unbound method becomes a function whose frames begin with one that holds the object alone. -/
def Routine.bindTo (r : Routine) (self : Value) : Exec Routine := do
  let closure ← Exec.pushFrame ⟨[(selfName, self)]⟩ r.closure
  pure { r with closure }

def Class.initializer? (c : Class) : Option Routine := c.methods.find? initializerName

def Class.arity (c : Class) : Nat := (c.initializer?.map Routine.arity).getD 0

def bindAll (params : List Token) (args : List Value) : Bindings Value :=
  (params.zip args).foldl (fun b (p, v) => b.put p.lexeme v) ⟨[]⟩

/-- An initializer's result is its object, however its body ends. -/
def Routine.result (r : Routine) (o : Outcome) (s : Store) : Value :=
  if r.isInitializer then ((s.frames.frame r.closure.frame).find? selfName).getD .nil else o.value

def Exec.passes (test : Exec Bool) (body : Exec Outcome) (step : Exec Unit) : Nat → Exec Outcome
  | 0 => Exec.endless
  | n + 1 => fun s =>
    match test s with
    | .error e s => .error e s
    | .ok false s => .ok .normal s
    | .ok true s =>
      match body s with
      | .error e s => .error e s
      | .ok .broken s => .ok .normal s
      | .ok (.returned v) s => .ok (.returned v) s
      | .ok .normal s | .ok .continued s =>
        match step s with
        | .error e s => .error e s
        | .ok _ s => passes test body step n s

namespace Evaluator

variable (m : Evaluator)

def evalAll : List Expr → Exec (List Value)
  | [] => pure []
  | e :: es => do
    let v ← m.eval e
    return v :: (← evalAll es)

def sequence : List Stmt → Exec Outcome
  | [] => pure .normal
  | s :: ss => do
    match ← m.exec s with
    | .normal => sequence ss
    | o => pure o

def block (contents : Bindings Value) (outer : Chain) (ss : List Stmt) : Exec Outcome := do
  let chain ← Exec.pushFrame contents outer
  Exec.within chain (m.sequence ss)

def invoke (r : Routine) (args : List Value) : Exec Value := do
  let outcome ← m.block (bindAll r.definition.params args) r.closure r.definition.body
  return r.result outcome (← get)

def instantiate (c : Class) (args : List Value) : Exec Value := do
  let self ← Exec.newObject c
  match c.initializer? with
  | none => pure self
  | some r =>
    let _ ← m.invoke (← r.bindTo self) args
    pure self

/-- The number of arguments is checked before anything of the call is done. -/
def apply (callee : Value) (args : List Value) (line : Int) : Exec Value :=
  let checked (arity : Nat) (p : Exec Value) : Exec Value :=
    if args.length = arity then Exec.blaming line p
    else Exec.fault (.wrongCount arity args.length) line
  match callee with
  | .native n => checked n.arity (n.apply args)
  | .function _ r => checked r.arity (m.invoke r args)
  | .classDef _ c => checked c.arity (m.instantiate c args)
  | _ => Exec.fault .notCallable line

/-- A field hides a method of its name. -/
def property (object : Value) (name : Token) : Exec Value := do
  match object with
  | .object id c =>
    match ((← get).fields id).find? name.lexeme, c.methods.find? name.lexeme with
    | some v, _ => pure v
    | none, some r =>
      let bound ← r.bindTo object
      return .function (← Exec.freshId) bound
    | none, none => Exec.fault (.undefinedProperty name.lexeme) name.line
  | _ => Exec.fault .noProperties name.line

def evalRule : Expr → Exec Value
  | .literal v => pure (.ofLiteral v)
  | .ref name hops => m.addressing.read name hops
  | .self keyword hops => m.addressing.read keyword hops
  | .assign name hops e => do
    let v ← m.eval e
    m.addressing.write name hops v
    pure v
  | .group e => m.eval e
  | .unary op e => do (← m.eval e).unary op
  | .binary l op r => do
    let a ← m.eval l
    let b ← m.eval r
    Value.binary op a b
  | .logical l op r => do
    let a ← m.eval l
    if a.truthy = decide (op.kind = .kwOr) then pure a else m.eval r
  | .ternary c y n line => do
    match ← m.eval c with
    | .bool true => m.eval y
    | .bool false => m.eval n
    | v => Exec.fault (.badSelector (← Exec.text v)) line
  | .call f paren args => do
    let callee ← m.eval f
    let vs ← m.evalAll args
    m.apply callee vs paren.line
  | .property o name => do property (← m.eval o) name
  | .setProperty o name e => do
    match ← m.eval o with
    | .object id _ =>
      let v ← m.eval e
      Exec.setField id name.lexeme v
      pure v
    | _ => Exec.fault .noFields name.line
  | .function f => do
    let id ← Exec.freshId
    return .function id ⟨none, f, (← get).chain, false⟩
  | .list es => do
    let vs ← m.evalAll es
    Exec.newList vs.toArray
  | .ofStmt s => do
    let _ ← m.exec s
    pure (.bool true)
  | .stub s => Exec.defect (.undispatched s)

def methodTable (closure : Chain) (methods : List Method) : Bindings Routine :=
  methods.foldl (fun b method =>
    let name := method.name.lexeme
    b.put name ⟨name, method.definition, closure, name = initializerName⟩) ⟨[]⟩

def execRule : Stmt → Exec Outcome
  | .expression e => do
    let _ ← m.eval e
    pure .normal
  | .print e => do
    let v ← m.eval e
    Exec.print (← Exec.text v)
    pure .normal
  | .varDecl name none => do
    Exec.define name.lexeme .nil
    pure .normal
  | .varDecl name (some e) => do
    let v ← m.eval e
    Exec.define name.lexeme v
    pure .normal
  | .funDecl name f => do
    let id ← Exec.freshId
    Exec.define name.lexeme (.function id ⟨name.lexeme, f, (← get).chain, false⟩)
    pure .normal
  | .classDecl name methods => do
    Exec.define name.lexeme .nil
    let id ← Exec.freshId
    let chain := (← get).chain
    Exec.define name.lexeme (.classDef id ⟨name.lexeme, methodTable chain methods⟩)
    pure .normal
  | .block ss => do m.block ⟨[]⟩ (← get).chain ss
  | .ifThen c y no => do
    if (← m.eval c).truthy then m.exec y
    else
      match no with
      | some n => m.exec n
      | none => pure .normal
  | .whileLoop c body step =>
    let test : Exec Bool := return (← m.eval c).truthy
    let after : Exec Unit :=
      match step with
      | some s => discard (m.exec s)
      | none => pure ()
    Exec.passes test (m.exec body) after m.limit
  | .ret _ none => pure (.returned .nil)
  | .ret _ (some e) => return .returned (← m.eval e)
  | .breakLoop _ => pure .broken
  | .continueLoop _ => pure .continued
  | .ofExpr e => do
    let _ ← m.eval e
    pure .normal

end Evaluator

end LoxLang
