import LoxLang.Tree.Scopes

namespace LoxLang

open Binder

mutual

def Expr.bind (here : Surroundings) : Expr → Binder Expr
  | .literal v => pure (.literal v)
  | .ref name _ => return .ref name (← locate .ref name)
  | .self keyword hops => do
    if here.inClass then return .self keyword (← locate .self keyword)
    else
      report keyword .thisOutsideClass
      return .self keyword hops
  | .assign name _ value => do
    let value ← value.bind here
    return .assign name (← locate .assign name) value
  | .group e => return .group (← e.bind here)
  | .unary op e => return .unary op (← e.bind here)
  | .binary l op r => do
    let l ← l.bind here
    return .binary l op (← r.bind here)
  | .logical l op r => do
    let l ← l.bind here
    return .logical l op (← r.bind here)
  | .ternary c y n line => do
    let c ← c.bind here
    let y ← y.bind here
    return .ternary c y (← n.bind here) line
  | .call f paren args => do
    let f ← f.bind here
    return .call f paren (← bindExprs here args)
  | .property o name => return .property (← o.bind here) name
  | .setProperty o name v => do
    let v ← v.bind here
    return .setProperty (← o.bind here) name v
  | .function f => return .function (← f.bind { here with role := .function })
  | .list es => return .list (← bindExprs here es)
  | .ofStmt s => return .ofStmt (← s.bind here)
  | .stub s => throw (if s = .object then .unhandled else .undispatched s)

def bindExprs (here : Surroundings) : List Expr → Binder (List Expr)
  | [] => pure []
  | e :: es => do
    let e ← e.bind here
    return e :: (← bindExprs here es)

def Lambda.bind (here : Surroundings) : Lambda → Binder Lambda
  | .mk params body => inScope ⟨[]⟩ do
    declareAll params
    return ⟨params, ← bindStmts { here with inLoop := false } body⟩

def Stmt.bind (here : Surroundings) : Stmt → Binder Stmt
  | .expression e => return .expression (← e.bind here)
  | .print e => return .print (← e.bind here)
  | .varDecl name none => do
    declare name
    define name
    return .varDecl name none
  | .varDecl name (some e) => do
    declare name
    checkInitial name e
    let e ← e.bind here
    define name
    return .varDecl name (some e)
  | .funDecl name f => do
    declare name
    define name
    return .funDecl name (← f.bind { here with role := .function })
  | .classDecl name methods => do
    declare name
    define name
    let scope : Bindings Bool := ⟨[(selfName, true)]⟩
    return .classDecl name (← inScope scope (bindMethods { here with inClass := true } methods))
  | .block ss => return .block (← inScope ⟨[]⟩ (bindStmts here ss))
  | .ifThen c y none => do
    let c ← c.bind here
    return .ifThen c (← y.bind here) none
  | .ifThen c y (some n) => do
    let c ← c.bind here
    let y ← y.bind here
    return .ifThen c y (some (← n.bind here))
  | .whileLoop c b none => do
    let c ← c.bind here
    return .whileLoop c (← b.bind { here with inLoop := true }) none
  | .whileLoop c b (some s) => do
    let c ← c.bind here
    let b ← b.bind { here with inLoop := true }
    return .whileLoop c b (some (← s.bind { here with inLoop := true }))
  | .ret keyword none => do
    checkReturn here.role keyword false
    return .ret keyword none
  | .ret keyword (some e) => do
    checkReturn here.role keyword true
    return .ret keyword (some (← e.bind here))
  | .breakLoop keyword => do
    checkJump here.inLoop keyword "break"
    return .breakLoop keyword
  | .continueLoop keyword => do
    checkJump here.inLoop keyword "continue"
    return .continueLoop keyword
  | .ofExpr e => return .ofExpr (← e.bind here)

def bindStmts (here : Surroundings) : List Stmt → Binder (List Stmt)
  | [] => pure []
  | s :: ss => do
    let s ← s.bind here
    return s :: (← bindStmts here ss)

def bindMethods (here : Surroundings) : List Method → Binder (List Method)
  | [] => pure []
  | .mk name f :: ms => do
    let role := if name.lexeme = initializerName then .initializer else .method
    let f ← f.bind { here with role }
    return ⟨name, f⟩ :: (← bindMethods here ms)

end

/-- A bound program, with its reports and addresses in the order in which they were made. -/
structure Bound where
  program : Except Defect (List Stmt)
  reports : List Report
  addresses : List Address

def bindProgram (ss : List Stmt) : Bound :=
  match (bindStmts {} ss).run {} with
  | .ok ss s => ⟨.ok ss, s.reports.reverse, s.addresses.reverse⟩
  | .error d s => ⟨.error d, s.reports.reverse, s.addresses.reverse⟩

end LoxLang
