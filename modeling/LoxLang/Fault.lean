import LoxLang.Value

namespace LoxLang

inductive Fault.Cause where
  | notANumber (operands : Nat)
  | badUnary
  | badBinary
  | divisionByZero
  | notAddable
  | badSelector (text : String)
  | notCallable
  | wrongCount (expected given : Nat)
  | noProperties
  | noFields
  | undefinedProperty (name : String)
  | undefinedVariable (name : String)
  | notAList (native : Native)
  | notAnIndex (native : Native)
  | outOfRange (index : Int) (size : Nat)
deriving DecidableEq, Repr, Inhabited

def Fault.Cause.message : Fault.Cause → String
  | .notANumber operands => "Operand" ++ (if 1 < operands then "s" else "") ++ " must be a number."
  | .badUnary => "Unsupported unary operator"
  | .badBinary => "Unsupported binary operator"
  | .divisionByZero => "Division by zero"
  | .notAddable => "Operands must be two numbers or at least one string"
  | .badSelector text => "Ternary selector must evaluate to a boolean but was: " ++ text
  | .notCallable => "Can only call functions and classes"
  | .wrongCount expected given =>
    "Expected " ++ toString expected ++ " arguments but got " ++ toString given
  | .noProperties => "Only instances have properties"
  | .noFields => "Only instances have fields"
  | .undefinedProperty name => "Undefined property '" ++ name ++ "'"
  | .undefinedVariable name => "Undefined variable '" ++ name ++ "'"
  | .notAList n => "First argument to " ++ n.name ++ "() must be a list"
  | .notAnIndex n => "Index passed to " ++ n.name ++ "() must be an integer"
  | .outOfRange index size =>
    "Index " ++ toString index ++ " out of range for list of size " ++ toString size

/-- A native function does not know the line it is called from, and gives none. -/
structure Fault where
  cause : Fault.Cause
  line : Option Int
deriving DecidableEq, Repr, Inhabited

end LoxLang
