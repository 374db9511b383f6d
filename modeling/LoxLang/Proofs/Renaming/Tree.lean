import LoxLang.Native
import LoxLang.Proofs.Tree.Address

namespace LoxLang

/-- The variable or parameter `old` of one scope gets the name `new`. The address of the node that opens
the scope tells which part of which part it is, from the node outward to the program. -/
structure Renaming where
  address : List Nat
  old : String
  new : String

namespace Renaming

variable (r : Renaming)

def token (renamed : Bool) (name : Token) : Token :=
  if renamed = true ∧ name.lexeme = r.old then { name with lexeme := r.new } else name

/-- A mention of a name, inside scopes of which each may be that of the variable. -/
def mention (Γ : List Bool) (name : Token) : Option Nat → Token
  | some d => r.token ((Γ.drop d).headD false) name
  | none => name

end Renaming

section rename

variable (r : Renaming) (counted : Bool)

mutual

/-- The tree at an address with the variable renamed, with or without the scopes counted for it. Of the
scopes around it, the innermost first, `Γ` says which is that of the variable. -/
def Expr.rename (place : List Nat) (Γ : List Bool) : Expr → Expr
  | .literal v => .literal v
  | .ref name hops => .ref (r.mention Γ name hops) (if counted then hops else none)
  | .self keyword hops => .self keyword (if counted then hops else none)
  | .assign name hops e =>
    .assign (r.mention Γ name hops) (if counted then hops else none) (e.rename (0 :: place) Γ)
  | .group e => .group (e.rename (0 :: place) Γ)
  | .unary op e => .unary op (e.rename (0 :: place) Γ)
  | .binary left op right => .binary (left.rename (0 :: place) Γ) op (right.rename (1 :: place) Γ)
  | .logical left op right => .logical (left.rename (0 :: place) Γ) op (right.rename (1 :: place) Γ)
  | .ternary c y n line =>
    .ternary (c.rename (0 :: place) Γ) (y.rename (1 :: place) Γ) (n.rename (2 :: place) Γ) line
  | .call f paren args => .call (f.rename (0 :: place) Γ) paren (renameExprs place Γ 1 args)
  | .property o name => .property (o.rename (0 :: place) Γ) name
  | .setProperty o name v => .setProperty (o.rename (0 :: place) Γ) name (v.rename (1 :: place) Γ)
  | .function f => .function (f.rename (0 :: place) Γ)
  | .list es => .list (renameExprs place Γ 0 es)
  | .ofStmt t => .ofStmt (t.rename (0 :: place) Γ)
  | .stub s => .stub s

def renameExprs (place : List Nat) (Γ : List Bool) (i : Nat) : List Expr → List Expr
  | [] => []
  | e :: es => e.rename (i :: place) Γ :: renameExprs place Γ (i + 1) es

def Lambda.rename (place : List Nat) (Γ : List Bool) : Lambda → Lambda
  | .mk params body =>
    ⟨params.map (r.token (place = r.address)), renameStmts place (decide (place = r.address) :: Γ) 0 body⟩

def Stmt.rename (place : List Nat) (Γ : List Bool) : Stmt → Stmt
  | .expression e => .expression (e.rename (0 :: place) Γ)
  | .print e => .print (e.rename (0 :: place) Γ)
  | .varDecl name none => .varDecl (r.token (Γ.headD false) name) none
  | .varDecl name (some e) => .varDecl (r.token (Γ.headD false) name) (some (e.rename (0 :: place) Γ))
  | .funDecl name f => .funDecl name (f.rename (0 :: place) Γ)
  | .classDecl name ms => .classDecl name (renameMethods place (false :: Γ) 0 ms)
  | .block ss => .block (renameStmts place (decide (place = r.address) :: Γ) 0 ss)
  | .ifThen c y none => .ifThen (c.rename (0 :: place) Γ) (y.rename (1 :: place) Γ) none
  | .ifThen c y (some n) =>
    .ifThen (c.rename (0 :: place) Γ) (y.rename (1 :: place) Γ) (some (n.rename (2 :: place) Γ))
  | .whileLoop c b none => .whileLoop (c.rename (0 :: place) Γ) (b.rename (1 :: place) Γ) none
  | .whileLoop c b (some s) =>
    .whileLoop (c.rename (0 :: place) Γ) (b.rename (1 :: place) Γ) (some (s.rename (2 :: place) Γ))
  | .ret keyword none => .ret keyword none
  | .ret keyword (some e) => .ret keyword (some (e.rename (0 :: place) Γ))
  | .breakLoop keyword => .breakLoop keyword
  | .continueLoop keyword => .continueLoop keyword
  | .ofExpr e => .ofExpr (e.rename (0 :: place) Γ)

def renameStmts (place : List Nat) (Γ : List Bool) (i : Nat) : List Stmt → List Stmt
  | [] => []
  | t :: ts => t.rename (i :: place) Γ :: renameStmts place Γ (i + 1) ts

def renameMethods (place : List Nat) (Γ : List Bool) (i : Nat) : List Method → List Method
  | [] => []
  | .mk name f :: ms => ⟨name, f.rename (i :: place) Γ⟩ :: renameMethods place Γ (i + 1) ms

end

def Node.rename (place : List Nat) (Γ : List Bool) : Node → Node
  | .expr e => .expr (e.rename r counted place Γ)
  | .lambda f => .lambda (f.rename r counted place Γ)
  | .stmt t => .stmt (t.rename r counted place Γ)

def renameProgram (program : List Stmt) : List Stmt := renameStmts r counted [] [] 0 program

end rename

def Node.names : Node → List String
  | .expr (.ref name _) | .expr (.assign name _ _) => [name.lexeme]
  | .lambda f => f.params.map Token.lexeme
  | .stmt t => t.declares
  | _ => []

def Stmt.routine? : Stmt → Option String
  | .funDecl name _ | .classDecl name _ => some name.lexeme
  | _ => none

def Stmt.variable? : Stmt → Option String
  | .varDecl name _ => some name.lexeme
  | _ => none

def Node.body : Node → List Stmt
  | .lambda f => f.body
  | .stmt (.block ss) => ss
  | _ => []

/-- The variables and parameters of the scope that a node opens. -/
def Node.locals : Node → List String
  | .lambda f => f.params.map Token.lexeme ++ f.body.filterMap Stmt.variable?
  | .stmt (.block ss) => ss.filterMap Stmt.variable?
  | _ => []

namespace Renaming

/-- The name to change is that of a variable or parameter in the scope of a block or function. -/
def Local (r : Renaming) (program : List Stmt) : Prop :=
  ∃ j, nodeAt program r.address = some j ∧ r.old ∈ j.locals

/-- The new name is no keyword for an object, no native function's, and nowhere in the program. -/
structure Fresh (r : Renaming) (program : List Stmt) : Prop where
  ne_self : r.new ≠ selfName
  ne_native : ∀ n : Native, n.name ≠ r.new
  not_mem : ∀ Δ j, Occurs program Δ j → r.new ∉ j.names

end Renaming

end LoxLang
