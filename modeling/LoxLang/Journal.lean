import LoxLang.Report

namespace LoxLang

structure Journal where
  messages : List String := []
  hadError : Bool := false
  hadFault : Bool := false
  written : String := ""
deriving DecidableEq, Repr, Inhabited

namespace Journal

def write (j : Journal) (message : String) : Journal :=
  { j with messages := j.messages ++ [message], written := j.written ++ message ++ "\n" }

def complain (j : Journal) (place : Place) (message : String) : Journal :=
  { j.write ("[line " ++ toString place.lineNumber ++ "] Error" ++ place.mention ++ ": " ++ message)
    with hadError := true }

def fault (j : Journal) (line : Option Int) (message : String) : Journal :=
  let position :=
    match line with
    | some n => "\n[line " ++ toString n ++ "]"
    | none => ""
  { j.write (message ++ position) with hadFault := true }

def reset (j : Journal) : Journal := { written := j.written }

def report (j : Journal) (r : Report) : Journal := j.complain r.place r.complaint.message

def reportAll (j : Journal) (rs : List Report) : Journal := rs.foldl report j

theorem hadError_reportAll (j : Journal) (rs : List Report) :
    (j.reportAll rs).hadError = false ↔ j.hadError = false ∧ rs = [] := by
  unfold reportAll
  induction rs generalizing j with
  | nil => simp
  | cons r rs ih => simp [ih, report, complain]

end Journal

end LoxLang
