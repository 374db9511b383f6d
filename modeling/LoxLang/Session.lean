import LoxLang.Eval
import LoxLang.Journal
import LoxLang.Token.Piece
import LoxLang.Tree.Bind
import LoxLang.Tree.Grammar
import LoxLang.Tree.Written

namespace LoxLang

structure Session where
  journal : Journal := {}
  store : Store := {}

instance : Inhabited Session := ⟨{}⟩

inductive Ending where
  | finished
  | defect (d : Defect)
  | endless
deriving DecidableEq, Repr, Inhabited

/-- Shows the value of an expression that stands alone. -/
def Stmt.echo : Stmt → Stmt
  | .expression e => .print e
  | s => s

namespace Session

def report (s : Session) (rs : List Report) : Session :=
  { s with journal := s.journal.reportAll rs }

/-- Runs statements. A fault ends them and goes to the journal. -/
def execute (fuel : Nat) (ss : List Stmt) (s : Session) : Ending × Session :=
  match runProgram Addressing.byDistance fuel ss s.store with
  | .ok _ store => (.finished, { s with store })
  | .error (.fault f) store =>
    (.finished, ⟨s.journal.fault f.line f.cause.message, store⟩)
  | .error (.defect d) store => (.defect d, { s with store })
  | .error .endless store => (.endless, { s with store })

def bindAndExecute (fuel : Nat) (interactive : Bool) (ss : List Stmt) (s : Session) :
    Ending × Session :=
  let bound := bindProgram ss
  let s := s.report bound.reports
  match bound.program with
  | .error d => (.defect d, s)
  | .ok ss =>
    if s.journal.hadError then (.finished, s)
    else
      match interactive, ss with
      | true, [only] => s.execute fuel [only.echo]
      | _, ss => s.execute fuel ss

/-- Reads a program text and, if nothing was ever reported since the last reset, runs it. -/
def run (fuel : Nat) (interactive : Bool) (source : String) (s : Session) : Ending × Session :=
  let (tokens, scanned) := Token.scan source
  let (program, parsed) := parse tokens
  let s := (s.report scanned).report parsed
  match program with
  | none => (.endless, s)
  | some [] => (.finished, s)
  | some ss => if s.journal.hadError then (.finished, s) else s.bindAndExecute fuel interactive ss

def reset (s : Session) : Session := { s with journal := s.journal.reset }

def takeOutput (s : Session) : String × Session :=
  (s.store.printedText, { s with store := { s.store with printed := #[] } })

/-- A native function is not shown while its name still has a value of its text. -/
def showsNative (name text : String) : Bool :=
  Native.all.any fun n =>
    n.name = name && ((Value.native n).text? #[]) = some text

def globalTexts (s : Session) : List (String × String) :=
  (s.store.frames.frame globals.frame).sorted.filterMap fun (name, v) =>
    match v.text? s.store.lists with
    | some text => if showsNative name text then none else some (name, text)
    | none => none

def exitCode (s : Session) : Nat :=
  if s.journal.hadError then 65 else if s.journal.hadFault then 70 else 0

end Session

end LoxLang
