import LoxLang.Tree.Cursor

namespace LoxLang.Grammar

open Reader

def maxArguments : Nat := 255

def maxElements : Nat := 1000

def leftTail (ops : List Token.Kind) (join : Expr → Token → Expr → Expr) (operand : Reader Expr) :
    Nat → Expr → Reader Expr
  | 0, _ => stuck
  | n + 1, left => do
    match ← take? (· ∈ ops) with
    | none => pure left
    | some op =>
      let right ← operand
      leftTail ops join operand n (join left op right)

def leftAssoc (n : Nat) (ops : List Token.Kind) (join : Expr → Token → Expr → Expr)
    (operand : Reader Expr) : Reader Expr := do
  let first ← operand
  leftTail ops join operand n first

def binaryLevels : List (List Token.Kind) :=
  [[.bangEqual, .equalEqual], [.greater, .greaterEqual, .less, .lessEqual], [.minus, .plus],
   [.slash, .star]]

def equality (n : Nat) (unary : Reader Expr) : Reader Expr :=
  binaryLevels.foldr (fun ops operand => leftAssoc n ops .binary operand) unary

/-- The rest of a chain of conditionals, grouped to the left; `line` is where its first selector ends. -/
def conditionalTail (equality conditional : Reader Expr) (line : Int) : Nat → Expr → Reader Expr
  | 0, _ => stuck
  | n + 1, selector => do
    match ← accept .question with
    | none => pure selector
    | some _ =>
      let yes ← conditional
      let _ ← expect .colon "':' in ternary expression"
      let no ← equality
      conditionalTail equality conditional line n (.ternary selector yes no line)

def conditional (n : Nat) (unary conditional : Reader Expr) : Reader Expr := do
  let selector ← equality n unary
  let last ← previous
  conditionalTail (equality n unary) conditional last.line n selector

def disjunction (n : Nat) (conditional : Reader Expr) : Reader Expr :=
  leftAssoc n [.kwOr] .logical (leftAssoc n [.kwAnd] .logical conditional)

/-- A target is recognised after it was read. One that cannot be assigned to is reported, and the
value is dropped. -/
def assignment (n : Nat) (conditional expression : Reader Expr) : Reader Expr := do
  let target ← disjunction n conditional
  match ← accept .equal with
  | none => pure target
  | some equals =>
    let value ← expression
    match target with
    | .ref name _ => pure (.assign name none value)
    | .property object name => pure (.setProperty object name value)
    | _ =>
      report equals .invalidTarget
      pure target

/-- One item and more after commas; each past the limit is reported, and read all the same. -/
def commaList {α : Type} (item : Reader α) (limit : Nat) (what : String) :
    Nat → Nat → Reader (List α)
  | 0, _ => stuck
  | n + 1, count => do
    if limit ≤ count then report (← peek) (.tooMany limit what)
    let first ← item
    match ← accept .comma with
    | none => pure [first]
    | some _ => return first :: (← commaList item limit what n (count + 1))

def listUntil {α : Type} (n : Nat) (closing : Token.Kind) (item : Reader α) (limit : Nat)
    (what : String) : Reader (List α) := do
  if ← sees closing then pure [] else commaList item limit what n 0

def callTail (expression : Reader Expr) : Nat → Expr → Reader Expr
  | 0, _ => stuck
  | n + 1, e => do
    match ← take? (· ∈ [.leftParen, .dot]) with
    | none => pure e
    | some t =>
      if t.kind = .leftParen then
        let arguments ← listUntil n .rightParen expression maxArguments "arguments"
        let paren ← expect .rightParen "')' after arguments"
        callTail expression n (.call e paren arguments)
      else
        let name ← expect .identifier "property name after '.'"
        callTail expression n (.property e name)

/-- Parameters and body; no loop around a function reaches into it. -/
def lambda (n : Nat) (block : Reader (List Stmt)) (what : String) : Reader Lambda := inFunction do
  let _ ← expect .leftParen ("'(' after beginning of " ++ what ++ " definition")
  let params ← listUntil n .rightParen (expect .identifier "parameter name") maxArguments "parameters"
  let _ ← expect .rightParen "')' after parameters"
  let _ ← expect .leftBrace ("'\x7b' before " ++ what ++ " body")
  let body ← block
  pure ⟨params, body⟩

def startsOperand (kind : Token.Kind) : Bool :=
  kind ∈ [.kwFalse, .kwTrue, .kwNil, .number, .string, .kwThis, .identifier, .kwFun, .leftBracket,
    .leftParen]

def primary (n : Nat) (expression : Reader Expr) (block : Reader (List Stmt)) : Reader Expr := do
  match ← take? startsOperand with
  | none => giveUp (← peek) (.expected "expression")
  | some t =>
    match t.kind with
    | .kwFalse => pure (.literal (.bool false))
    | .kwTrue => pure (.literal (.bool true))
    | .kwNil => pure (.literal .nil)
    | .kwThis => pure (.self t none)
    | .identifier => pure (.ref t none)
    | .kwFun => return .function (← lambda n block "function")
    | .leftBracket =>
      let elements ← listUntil n .rightBracket expression maxElements "elements in a list literal"
      let _ ← expect .rightBracket "']' after list elements"
      pure (.list elements)
    | .leftParen =>
      let inner ← expression
      let _ ← expect .rightParen "')' after expression"
      pure (.group inner)
    | _ => pure (.literal (t.literal.getD .nil))

def unary (n : Nat) (unary expression : Reader Expr) (block : Reader (List Stmt)) : Reader Expr := do
  match ← take? (· ∈ [.bang, .minus]) with
  | some op => return .unary op (← unary)
  | none =>
    let operand ← primary n expression block
    callTail expression n operand

end LoxLang.Grammar
