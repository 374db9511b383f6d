import LoxLang.Report
import LoxLang.Tree

namespace LoxLang

/-- Tokens before the place, the latest first, and from it on. `loops` has an entry for each function
body around the place, the innermost first and the top level last, that counts the loop bodies around
the place in it. Reports are kept the latest first. -/
structure Cursor where
  before : List Token
  rest : List Token
  loops : List Nat
  reports : List Report
deriving Repr, Inhabited

inductive Abort where
  | reported
  | stuck
deriving DecidableEq, Repr, Inhabited

abbrev Reader := EStateM Abort Cursor

namespace Cursor

def ofTokens (ts : List Token) : Cursor := ⟨[], ts, [0], []⟩

def enterLoop (c : Cursor) : Cursor :=
  match c.loops with
  | d :: ds => { c with loops := (d + 1) :: ds }
  | [] => c

def leaveLoop (c : Cursor) : Cursor :=
  match c.loops with
  | d :: ds => { c with loops := (d - 1) :: ds }
  | [] => c

def enterFunction (c : Cursor) : Cursor := { c with loops := 0 :: c.loops }

def leaveFunction (c : Cursor) : Cursor := { c with loops := c.loops.drop 1 }

@[simp]
theorem leaveLoop_enterLoop (c : Cursor) : c.enterLoop.leaveLoop = c := by
  obtain ⟨before, rest, loops, reports⟩ := c
  cases loops <;> rfl

@[simp]
theorem leaveFunction_enterFunction (c : Cursor) : c.enterFunction.leaveFunction = c := rfl

def inLoop (c : Cursor) : Bool := decide (0 < c.loops.headD 0)

/-- The tokens at which reading starts again after an error. -/
def startsStatement (kind : Token.Kind) : Bool :=
  kind ∈ [.kwClass, .kwFun, .kwVar, .kwFor, .kwIf, .kwWhile, .kwPrint, .kwReturn]

/-- Moves to the end, to a token after a semicolon, or to one that starts a statement. -/
def skip (before : List Token) : List Token → List Token × List Token
  | [] => (before, [])
  | t :: rest =>
    if t.kind = .eof ∨ (before.head?.map Token.kind) = some .semicolon ∨ startsStatement t.kind then
      (before, t :: rest)
    else skip (t :: before) rest

/-- Leaves the token at the error, unless it is the end, and skips. -/
def recover (c : Cursor) : Cursor :=
  let (before, rest) :=
    match c.rest with
    | [] => (c.before, [])
    | t :: rest => if t.kind = .eof then (c.before, t :: rest) else skip (t :: c.before) rest
  { c with before, rest }

end Cursor

namespace Reader

variable {α : Type}

def stuck : Reader α := throw .stuck

def peek : Reader Token := fun c =>
  match c.rest with
  | t :: _ => .ok t c
  | [] => .error .stuck c

def previous : Reader Token := fun c =>
  match c.before with
  | t :: _ => .ok t c
  | [] => .error .stuck c

def report (t : Token) (complaint : Complaint) : Reader Unit :=
  modify fun c => { c with reports := ⟨.token t, complaint⟩ :: c.reports }

def giveUp (t : Token) (complaint : Complaint) : Reader α := do
  report t complaint
  throw .reported

/-- Takes the next token if it satisfies the test. The end is never taken. -/
def take? (test : Token.Kind → Bool) : Reader (Option Token) := fun c =>
  match c.rest with
  | t :: rest =>
    if t.kind ≠ .eof ∧ test t.kind then .ok (some t) { c with before := t :: c.before, rest }
    else .ok none c
  | [] => .error .stuck c

def accept (kind : Token.Kind) : Reader (Option Token) := take? (· = kind)

def expect (kind : Token.Kind) (what : String) : Reader Token := do
  match ← accept kind with
  | some t => pure t
  | none => giveUp (← peek) (.expected what)

def sees (kind : Token.Kind) : Reader Bool := do
  let t ← peek
  pure (t.kind ≠ .eof && t.kind = kind)

/-- Runs a reader between two changes of the cursor, the second also when the reader gives up. -/
def between (enter leave : Cursor → Cursor) (p : Reader α) : Reader α := fun c =>
  match p (enter c) with
  | .ok a c => .ok a (leave c)
  | .error e c => .error e (leave c)

def inLoop (p : Reader α) : Reader α := between Cursor.enterLoop Cursor.leaveLoop p

def inFunction (p : Reader α) : Reader α := between Cursor.enterFunction Cursor.leaveFunction p

/-- Reads none where the reader gives up, and goes on after the error. -/
def recovering (p : Reader α) : Reader (Option α) := fun c =>
  match p c with
  | .ok a c => .ok (some a) c
  | .error .reported c => .ok none c.recover
  | .error .stuck c => .error .stuck c

end Reader

end LoxLang
