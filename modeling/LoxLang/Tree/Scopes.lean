import LoxLang.Bindings
import LoxLang.Defect
import LoxLang.Report

namespace LoxLang

inductive Role where
  | none | function | method | initializer
deriving DecidableEq, Repr, Inhabited

structure Surroundings where
  role : Role := .none
  inClass : Bool := false
  inLoop : Bool := false
deriving DecidableEq, Repr, Inhabited

inductive Mention where
  | ref | assign | self
deriving DecidableEq, Repr, Inhabited

/-- A node that mentions a variable, and how many scopes out its declaration is. -/
structure Address where
  mention : Mention
  name : Token
  hops : Nat
deriving Repr, Inhabited

/-- Scopes, the innermost first, whose names hold whether their declaration is complete. The reports
made and the addresses found are kept the latest first. -/
structure Scopes where
  levels : List (Bindings Bool) := []
  reports : List Report := []
  addresses : List Address := []
deriving Repr, Inhabited

namespace Scopes

/-- The scopes out to the first that declares the name, completely or not. -/
def outward? (name : String) : List (Bindings Bool) → Option Nat
  | [] => none
  | s :: ss => if s.contains name then some 0 else (outward? name ss).map (· + 1)

/-- In the innermost scope a name is not visible until its declaration is complete. -/
def hops? (name : String) : List (Bindings Bool) → Option Nat
  | [] => none
  | s :: ss => if s.find? name = some true then some 0 else (outward? name ss).map (· + 1)

end Scopes

abbrev Binder := EStateM Defect Scopes

namespace Binder

variable {α : Type}

def report (t : Token) (complaint : Complaint) : Binder Unit :=
  modify fun s => { s with reports := ⟨.token t, complaint⟩ :: s.reports }

def declare (name : Token) : Binder Unit := do
  match (← get).levels with
  | [] => pure ()
  | scope :: outer =>
    if scope.contains name.lexeme then report name .alreadyDeclared
    modify fun s => { s with levels := scope.put name.lexeme false :: outer }

def define (name : Token) : Binder Unit := do
  match (← get).levels with
  | [] => pure ()
  | scope :: outer =>
    if scope.contains name.lexeme then
      modify fun s => { s with levels := scope.put name.lexeme true :: outer }
    else throw (.undeclared name.lexeme)

def inScope (scope : Bindings Bool) (p : Binder α) : Binder α := do
  modify fun s => { s with levels := scope :: s.levels }
  let a ← p
  modify fun s => { s with levels := s.levels.drop 1 }
  pure a

/-- Finds where a mentioned name is declared; none is a global. -/
def locate (mention : Mention) (name : Token) : Binder (Option Nat) := do
  match Scopes.hops? name.lexeme (← get).levels with
  | none => pure none
  | some d =>
    modify fun s => { s with addresses := ⟨mention, name, d⟩ :: s.addresses }
    pure (some d)

def declareAll : List Token → Binder Unit
  | [] => pure ()
  | name :: names => do
    declare name
    define name
    declareAll names

def checkInitial (name : Token) (initial : Expr) : Binder Unit := do
  match initial.ungroup with
  | .ref other _ =>
    if !(← get).levels.isEmpty && other.lexeme = name.lexeme then report other .ownInitializer
  | _ => pure ()

def checkReturn (role : Role) (keyword : Token) (hasValue : Bool) : Binder Unit := do
  if role = .none then report keyword .topLevelReturn
  if hasValue && role = .initializer then report keyword .initializerReturn

def checkJump (inLoop : Bool) (keyword : Token) (word : String) : Binder Unit := do
  if !inLoop then report keyword (.outsideLoop word)

end Binder

end LoxLang
