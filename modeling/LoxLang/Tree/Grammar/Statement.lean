import LoxLang.Tree.Grammar.Expression

namespace LoxLang.Grammar

open Reader

def expressionStmt (expression : Reader Expr) : Reader Stmt := do
  let e ← expression
  let _ ← expect .semicolon "';' after expression"
  pure (.expression e)

def varDecl (expression : Reader Expr) : Reader Stmt := do
  let name ← expect .identifier "variable name"
  let initial ← match ← accept .equal with
    | none => pure none
    | some _ => some <$> expression
  let _ ← expect .semicolon "';' after variable declaration"
  pure (.varDecl name initial)

def jump (keyword : Token) (node : Token → Stmt) : Reader Stmt := do
  if (← get).inLoop then
    let _ ← expect .semicolon ("';' after '" ++ keyword.lexeme ++ "'")
    pure (node keyword)
  else giveUp keyword (.outsideLoop keyword.lexeme)

def whileStmt (expression : Reader Expr) (statement : Reader Stmt) : Reader Stmt := do
  let _ ← expect .leftParen "'(' after 'while'"
  let condition ← expression
  let _ ← expect .rightParen "')' after condition"
  let body ← inLoop statement
  pure (.whileLoop condition body none)

def forInit (expression : Reader Expr) : Reader (Option Stmt) := do
  match ← take? (· ∈ [.semicolon, .kwVar]) with
  | some t => if t.kind = .semicolon then pure none else some <$> varDecl expression
  | none => some <$> expressionStmt expression

def forStmt (expression : Reader Expr) (statement : Reader Stmt) : Reader Stmt := do
  let _ ← expect .leftParen "'(' after 'for'"
  let first ← forInit expression
  let condition ← if ← sees .semicolon then pure (.literal (.bool true)) else expression
  let _ ← expect .semicolon "';' after loop condition"
  let step ← if ← sees .rightParen then pure none else some <$> expression
  let _ ← expect .rightParen "')' after for clauses"
  let body ← inLoop statement
  let loop : Stmt := .whileLoop condition body (step.map .expression)
  match first with
  | some s => pure (.block [s, loop])
  | none => pure loop

def ifStmt (expression : Reader Expr) (statement : Reader Stmt) : Reader Stmt := do
  let _ ← expect .leftParen "'(' after 'if'"
  let condition ← expression
  let _ ← expect .rightParen "')' after if condition"
  let yes ← statement
  let no ← match ← accept .kwElse with
    | none => pure none
    | some _ => some <$> statement
  pure (.ifThen condition yes no)

def printStmt (expression : Reader Expr) : Reader Stmt := do
  let e ← expression
  let _ ← expect .semicolon "';' after value"
  pure (.print e)

def returnStmt (keyword : Token) (expression : Reader Expr) : Reader Stmt := do
  let value ← if ← sees .semicolon then pure none else some <$> expression
  let _ ← expect .semicolon "';' after return value"
  pure (.ret keyword value)

def startsPlainStmt (kind : Token.Kind) : Bool :=
  kind ∈ [.kwBreak, .kwContinue, .kwFor, .kwIf, .kwPrint, .kwReturn, .kwWhile, .leftBrace]

def statement (expression : Reader Expr) (statement : Reader Stmt) (block : Reader (List Stmt)) :
    Reader Stmt := do
  match ← take? startsPlainStmt with
  | none => expressionStmt expression
  | some t =>
    match t.kind with
    | .kwBreak => jump t .breakLoop
    | .kwContinue => jump t .continueLoop
    | .kwFor => forStmt expression statement
    | .kwIf => ifStmt expression statement
    | .kwPrint => printStmt expression
    | .kwReturn => returnStmt t expression
    | .kwWhile => whileStmt expression statement
    | _ => return .block (← block)

def function (n : Nat) (block : Reader (List Stmt)) (what : String) : Reader (Token × Lambda) := do
  let name ← expect .identifier (what ++ " name")
  let definition ← lambda n block what
  pure (name, definition)

def atEnd : Reader Bool := do
  let t ← peek
  pure (t.kind = .eof)

def methods (n : Nat) (block : Reader (List Stmt)) : Nat → Reader (List Method)
  | 0 => stuck
  | m + 1 => do
    if (← sees .rightBrace) || (← atEnd) then pure []
    else
      let (name, definition) ← function n block "method"
      return ⟨name, definition⟩ :: (← methods n block m)

def classDecl (n : Nat) (block : Reader (List Stmt)) : Reader Stmt := do
  let name ← expect .identifier "class name"
  let _ ← expect .leftBrace "'\x7b' before class body"
  let ms ← methods n block n
  let _ ← expect .rightBrace "'\x7d' after class body"
  pure (.classDecl name ms)

/-- Only a name after `fun` makes a declaration of it; without one it begins an expression. -/
def seesNamedFunction : Reader Bool := do
  match (← get).rest with
  | first :: second :: _ => pure (first.kind = .kwFun && second.kind = .identifier)
  | _ => pure false

def attempt (n : Nat) (expression : Reader Expr) (statement : Reader Stmt)
    (block : Reader (List Stmt)) : Reader Stmt := do
  if (← accept .kwClass).isSome then classDecl n block
  else if ← seesNamedFunction then
    let _ ← accept .kwFun
    let (name, definition) ← function n block "function"
    pure (.funDecl name definition)
  else if (← accept .kwVar).isSome then varDecl expression
  else statement

def declaration (n : Nat) (expression : Reader Expr) (statement : Reader Stmt)
    (block : Reader (List Stmt)) : Reader (Option Stmt) :=
  recovering (attempt n expression statement block)

/-- Declarations up to the end, or to a token of the kind; those with an error are left out. -/
def declarations (closing : Token.Kind) (declaration : Reader (Option Stmt)) :
    Nat → Reader (List Stmt)
  | 0 => stuck
  | n + 1 => do
    if (← sees closing) || (← atEnd) then pure []
    else
      let first ← declaration
      let others ← declarations closing declaration n
      pure (first.toList ++ others)

def block (n : Nat) (declaration : Reader (Option Stmt)) : Reader (List Stmt) := do
  let body ← declarations .rightBrace declaration n
  let _ ← expect .rightBrace "'\x7d' after block"
  pure body

end LoxLang.Grammar
