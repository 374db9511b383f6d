import LoxLang.Token

namespace LoxLang

inductive Place where
  | line (n : Int)
  | token (t : Token)
deriving Repr, Inhabited

namespace Place

def lineNumber : Place → Int
  | .line n => n
  | .token t => t.line

/-- The words after `Error`: nothing for a bare line, else the token, which at the end has no text. -/
def mention : Place → String
  | .line _ => ""
  | .token t => if t.kind = .eof then " at end" else " at '" ++ t.lexeme ++ "'"

end Place

inductive Complaint where
  | unterminatedString
  | unterminatedComment
  | unexpectedCharacters (chars : List Char)
  | expected (what : String)
  | outsideLoop (keyword : String)
  | tooMany (limit : Nat) (what : String)
  | invalidTarget
  | alreadyDeclared
  | ownInitializer
  | topLevelReturn
  | initializerReturn
  | thisOutsideClass
deriving DecidableEq, Repr, Inhabited

def Complaint.message : Complaint → String
  | .unterminatedString => "Unterminated string"
  | .unterminatedComment => "Unterminated block comment at end of file"
  | .unexpectedCharacters chars => "Unexpected characters: " ++ String.ofList chars
  | .expected what => "Expected " ++ what
  | .outsideLoop keyword => "Can't use '" ++ keyword ++ "' outside of a loop"
  | .tooMany limit what => "Can't have more than " ++ toString limit ++ " " ++ what
  | .invalidTarget => "Invalid assignment target"
  | .alreadyDeclared => "Already a variable with this name in this scope"
  | .ownInitializer => "Can't read local variable in its own initializer"
  | .topLevelReturn => "Can't return from top-level code"
  | .initializerReturn => "Can't return a value from an initializer"
  | .thisOutsideClass => "Can't use 'this' outside of a class"

structure Report where
  place : Place
  complaint : Complaint
deriving Repr, Inhabited

end LoxLang
