import LoxLang.Session
import LoxLang.Text.Blank
import LoxLang.Text.Lines

namespace LoxLang

inductive Invocation where
  | prompt
  | script (path : String)
  | misuse
deriving DecidableEq, Repr

namespace Invocation

def ofArgs : List String → Invocation
  | [] => prompt
  | [path] => script path
  | _ => misuse

def usage (program : String) : String := "Usage: " ++ program ++ " [script]\n"

def misuseCode : Nat := 64

end Invocation

structure Transcript where
  ending : Ending
  exit : Nat
  out : String
  err : String

namespace Session

/-- Runs a script; none if its bytes are no text. -/
def script? (fuel : Nat) (bytes : ByteArray) (s : Session) : Option (Ending × Session) :=
  (Text.decode? bytes).map fun source => s.run fuel false source

def promptMark : String := "> "

def farewell : String := "Bye.\n"

/-- Runs one line of a prompt. White space runs nothing, and no report outlives its line. -/
def promptLine (fuel : Nat) (line : String) (s : Session) : Ending × Session :=
  let (ending, s) :=
    if line.toList.all Text.isBlank then (.finished, s) else s.run fuel true line
  (ending, s.reset)

end Session

namespace Transcript

def ofScript? (fuel : Nat) (bytes : ByteArray) (s : Session) : Option Transcript :=
  (s.script? fuel bytes).map fun (ending, s) =>
    ⟨ending, s.exitCode, s.store.printedText, s.journal.written⟩

def ofLines (fuel : Nat) (out : String) : List String → Session → Transcript
  | [], s => ⟨.finished, 0, out ++ Session.promptMark ++ Session.farewell, s.journal.written⟩
  | line :: lines, s =>
    let (ending, s) := s.promptLine fuel line
    let (text, s) := s.takeOutput
    let out := out ++ Session.promptMark ++ text
    match ending with
    | .finished => ofLines fuel out lines s
    | _ => ⟨ending, 0, out, s.journal.written⟩

def ofPrompt (fuel : Nat) (input : String) (s : Session) : Transcript :=
  ofLines fuel "" (Text.lines input) s

def ofMisuse (program : String) : Transcript :=
  ⟨.finished, Invocation.misuseCode, Invocation.usage program, ""⟩

end Transcript

end LoxLang
