import LoxLang.Tree

namespace LoxLang

inductive Defect where
  | undispatched (s : Stub)
  | unhandled
  | undeclared (name : String)
  | invalidDistance
  | missingArgument
deriving DecidableEq, Repr, Inhabited

def Defect.message : Defect → String
  | .undispatched s => "'" ++ s.name ++ "' could not be dispatched by visit()"
  | .unhandled => "'" ++ Stub.object.name ++ "' could not be handled by resolve()"
  | .undeclared name => "'" ++ name ++ "' was not declared in its scope"
  | .invalidDistance => "Invalid distance"
  | .missingArgument => "Missing argument"

end LoxLang
