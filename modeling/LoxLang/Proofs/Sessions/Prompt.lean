import LoxLang.CommandLine
import LoxLang.Proofs.Sessions.Outcome
import LoxLang.Proofs.Tree.Equality

namespace LoxLang

namespace Text

/-- The lines of a text. A line ends with a line feed, with a carriage return or with both, in that order; what
is after the last end is a line unless it is empty. -/
inductive Lined : List Char → List (List Char) → Prop
  | none : Lined [] []
  | last {line : List Char} (hline : line ≠ []) (hplain : '\n' ∉ line ∧ '\r' ∉ line) : Lined line [line]
  | ended {line mark rest : List Char} {others : List (List Char)} (hplain : '\n' ∉ line ∧ '\r' ∉ line)
      (hmark : mark = ['\n'] ∨ mark = ['\r', '\n'] ∨ mark = ['\r'] ∧ rest.head? ≠ some '\n')
      (hrest : Lined rest others) : Lined (line ++ mark ++ rest) (line :: others)

theorem Lined.cons {c : Char} {cs : List Char} {line : List Char} {others : List (List Char)}
    (hc : c ≠ '\n' ∧ c ≠ '\r') (h : Lined cs (line :: others)) : Lined (c :: cs) ((c :: line) :: others) := by
  have hplain : '\n' ∉ line ∧ '\r' ∉ line → '\n' ∉ c :: line ∧ '\r' ∉ c :: line := by
    simp [hc.1.symm, hc.2.symm]
  cases h with
  | last _ hline => exact .last (List.cons_ne_nil c _) (hplain hline)
  | ended hline hmark hrest => exact .ended (hplain hline) hmark hrest

end Text

namespace Journal

def messagesText (j : Journal) : String := String.join (j.messages.map (· ++ "\n"))

/-- All that was written is the messages: no reset took any of them away. -/
def Whole (j : Journal) : Prop := j.written = j.messagesText

theorem Whole.write {j : Journal} (h : j.Whole) (message : String) : (j.write message).Whole := by
  unfold Whole messagesText at h ⊢
  simp [Journal.write, h, String.append_assoc]

theorem Whole.complain {j : Journal} (h : j.Whole) (place : Place) (message : String) :
    (j.complain place message).Whole := h.write _

theorem Whole.fault {j : Journal} (h : j.Whole) (line : Option Int) (message : String) :
    (j.fault line message).Whole := h.write _

theorem Whole.reportAll {j : Journal} (h : j.Whole) (rs : List Report) : (j.reportAll rs).Whole := by
  unfold Journal.reportAll
  induction rs generalizing j with
  | nil => exact h
  | cons r rs ih => exact ih (h.complain _ _)

end Journal

namespace Session

variable {fuel : Nat} {interactive : Bool} {source : String} {s : Session}

end Session

section endless

end endless

section lines

end lines

end LoxLang
