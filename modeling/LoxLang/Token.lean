import LoxLang.Number.Text

namespace LoxLang

inductive Token.Kind where
  | leftParen | rightParen | leftBrace | rightBrace | leftBracket | rightBracket
  | comma | dot | minus | plus | semicolon | slash | star | question | colon
  | bang | bangEqual | equal | equalEqual | greater | greaterEqual | less | lessEqual
  | identifier | string | number
  | kwAnd | kwBreak | kwClass | kwContinue | kwElse | kwFalse | kwFun | kwFor | kwIf | kwNil
  | kwOr | kwPrint | kwReturn | kwThis | kwTrue | kwVar | kwWhile
  | eof
deriving DecidableEq, Repr, Inhabited

inductive Literal where
  | nil
  | bool (b : Bool)
  | number (x : Float)
  | text (s : String)
deriving Repr, Inhabited

structure Token where
  kind : Token.Kind
  lexeme : String
  line : Int
  literal : Option Literal := none
deriving Repr, Inhabited

namespace Token

def keywords : List (String × Kind) :=
  [("and", .kwAnd), ("break", .kwBreak), ("class", .kwClass), ("continue", .kwContinue),
   ("else", .kwElse), ("false", .kwFalse), ("fun", .kwFun), ("for", .kwFor), ("if", .kwIf),
   ("nil", .kwNil), ("or", .kwOr), ("print", .kwPrint), ("return", .kwReturn), ("this", .kwThis),
   ("true", .kwTrue), ("var", .kwVar), ("while", .kwWhile)]

/-- A word is a keyword exactly when it is in the table. -/
def wordKind (word : String) : Kind := (keywords.lookup word).getD .identifier

def Kind.all : List Kind :=
  [.leftParen, .rightParen, .leftBrace, .rightBrace, .leftBracket, .rightBracket, .comma, .dot,
   .minus, .plus, .semicolon, .slash, .star, .question, .colon, .bang, .bangEqual, .equal,
   .equalEqual, .greater, .greaterEqual, .less, .lessEqual, .identifier, .string, .number, .kwAnd,
   .kwBreak, .kwClass, .kwContinue, .kwElse, .kwFalse, .kwFun, .kwFor, .kwIf, .kwNil, .kwOr,
   .kwPrint, .kwReturn, .kwThis, .kwTrue, .kwVar, .kwWhile, .eof]

def Kind.label : Kind → String
  | .leftParen => "LEFT_PAREN" | .rightParen => "RIGHT_PAREN"
  | .leftBrace => "LEFT_BRACE" | .rightBrace => "RIGHT_BRACE"
  | .leftBracket => "LEFT_BRACKET" | .rightBracket => "RIGHT_BRACKET"
  | .comma => "COMMA" | .dot => "DOT" | .minus => "MINUS" | .plus => "PLUS"
  | .semicolon => "SEMICOLON" | .slash => "SLASH" | .star => "STAR"
  | .question => "QUESTION" | .colon => "COLON"
  | .bang => "BANG" | .bangEqual => "BANG_EQUAL" | .equal => "EQUAL"
  | .equalEqual => "EQUAL_EQUAL" | .greater => "GREATER" | .greaterEqual => "GREATER_EQUAL"
  | .less => "LESS" | .lessEqual => "LESS_EQUAL"
  | .identifier => "IDENTIFIER" | .string => "STRING" | .number => "NUMBER"
  | .kwAnd => "AND" | .kwBreak => "BREAK" | .kwClass => "CLASS" | .kwContinue => "CONTINUE"
  | .kwElse => "ELSE" | .kwFalse => "FALSE" | .kwFun => "FUN" | .kwFor => "FOR" | .kwIf => "IF"
  | .kwNil => "NIL" | .kwOr => "OR" | .kwPrint => "PRINT" | .kwReturn => "RETURN"
  | .kwThis => "THIS" | .kwTrue => "TRUE" | .kwVar => "VAR" | .kwWhile => "WHILE"
  | .eof => "EOF"

def Kind.ofLabel? (label : String) : Option Kind := Kind.all.find? (·.label = label)

/-- The literal as a listing of tokens shows it: a string without its quotes. -/
def literalLabel : Option Literal → String
  | none | some .nil => "None"
  | some (.bool b) => if b then "True" else "False"
  | some (.number x) => Number.fullText x
  | some (.text s) => s

def label (t : Token) : String :=
  "TokenType." ++ t.kind.label ++ " " ++ t.lexeme ++ " " ++ literalLabel t.literal

end Token

end LoxLang
