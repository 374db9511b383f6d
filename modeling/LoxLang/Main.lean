import LoxLang.CommandLine
import Std.Time.DateTime.Timestamp

namespace LoxLang.Main

/-- More steps than any run takes. -/
def fuel : Nat := 1000000000000000000

def programName : String := "loxlang"

/-- The seconds from one reading of the clock to the next, about as long as a call takes. -/
def tick : Float := 0.000001

/-- The clock of what runs next. It reads the seconds since 1970, from now on, or from where the clock
before it stands if that is later; a run looks at the time once and counts on from there. -/
def clockNow (before : Clock) : IO Clock := do
  let now ← Std.Time.Timestamp.now
  let seconds := Float.ofInt now.toMillisecondsSinceUnixEpoch.val / 1000
  pure (.ticking (max seconds before.next) tick)

def withClock (s : Session) : IO Session := do
  let clock ← clockNow s.store.clock
  pure { s with store := { s.store with clock } }

def runScript (path : String) : IO UInt32 := do
  let bytes ← IO.FS.readBinFile path
  match Transcript.ofScript? fuel bytes (← withClock {}) with
  | none =>
    IO.eprintln "the script is not a text in UTF-8"
    pure 1
  | some t =>
    IO.print t.out
    IO.eprint t.err
    pure t.exit.toUInt32

def promptLines : List String → Session → IO Session
  | [], s => pure s
  | line :: lines, s => do
    let written := s.journal.written.length
    let (_, s) := (← withClock s).promptLine fuel line
    let (text, s) := s.takeOutput
    IO.print (text ++ Session.promptMark)
    IO.eprint (s.journal.written.drop written).toString
    promptLines lines s

partial def prompt (input : IO.FS.Stream) (s : Session) : IO Unit := do
  (← IO.getStdout).flush
  let text ← input.getLine
  if text.isEmpty then IO.print Session.farewell
  else prompt input (← promptLines (Text.lines text) s)

def run (args : List String) : IO UInt32 := do
  match Invocation.ofArgs args with
  | .misuse =>
    IO.print (Invocation.usage programName)
    pure Invocation.misuseCode.toUInt32
  | .script path => runScript path
  | .prompt =>
    IO.print Session.promptMark
    prompt (← IO.getStdin) {}
    pure 0

end LoxLang.Main

def main (args : List String) : IO UInt32 := LoxLang.Main.run args
