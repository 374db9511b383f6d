import Mathlib.Data.List.TakeWhile
import LoxLang.Tree.Grammar

namespace LoxLang

inductive Body where
  | loop | function
deriving DecidableEq, Repr

namespace Body

/-- Of the bodies around a place, the innermost first, one is of a loop in the innermost function, or in none. -/
def insideLoop (bodies : List Body) : Bool := Body.loop ∈ bodies.takeWhile (· ≠ .function)

@[simp]
theorem insideLoop_nil : insideLoop [] = false := rfl

@[simp]
theorem insideLoop_loop (bodies : List Body) : insideLoop (.loop :: bodies) = true := by simp [insideLoop]

@[simp]
theorem insideLoop_function (bodies : List Body) : insideLoop (.function :: bodies) = false := by simp [insideLoop]

/-- The number of loop bodies in each function body, the innermost first and the top level last. -/
def tally : List Body → List Nat
  | [] => [0]
  | .loop :: bodies => (tally bodies).modifyHead (· + 1)
  | .function :: bodies => 0 :: tally bodies

theorem tally_ne_nil (bodies : List Body) : tally bodies ≠ [] := by
  induction bodies with
  | nil => exact List.cons_ne_nil _ _
  | cons b bodies ih =>
    cases b with
    | loop =>
      obtain ⟨d, ds, h⟩ := List.exists_cons_of_ne_nil ih
      simp [tally, h]
    | function => exact List.cons_ne_nil _ _

theorem inLoop_of_tally {c : Cursor} {bodies : List Body} (h : c.loops = tally bodies) :
    c.inLoop = insideLoop bodies := by
  rw [Cursor.inLoop, h]
  obtain _ | ⟨_ | _, bodies⟩ := bodies
  · rfl
  · obtain ⟨d, ds, hd⟩ := List.exists_cons_of_ne_nil (tally_ne_nil bodies)
    simp [tally, hd]
  · simp [tally]

end Body

/-- The rule for statements, with a reader of its own for the bodies of loops. -/
def Grammar.statementIn (expression : Reader Expr) (statement loopBody : Reader Stmt) (block : Reader (List Stmt)) :
    Reader Stmt := do
  match ← Reader.take? startsPlainStmt with
  | none => expressionStmt expression
  | some t =>
    match t.kind with
    | .kwBreak => jump t .breakLoop
    | .kwContinue => jump t .continueLoop
    | .kwFor => forStmt expression loopBody
    | .kwIf => ifStmt expression statement
    | .kwPrint => printStmt expression
    | .kwReturn => returnStmt t expression
    | .kwWhile => whileStmt expression loopBody
    | _ => return .block (← block)

theorem Grammar.statement_eq (expression : Reader Expr) (statement : Reader Stmt) (block : Reader (List Stmt)) :
    Grammar.statement expression statement block = statementIn expression statement statement block := rfl

namespace Reader

open Classical in
/-- Goes on from where the condition holds, and is stuck elsewhere. -/
noncomputable def stopUnless (holds : Cursor → Prop) : Reader Unit := fun c =>
  if holds c then .ok () c else .error .stuck c

section watched

variable (watch : List Body → Cursor → Prop)

mutual

noncomputable def expressionIn : Nat → List Body → Reader Expr
  | 0, _ => stuck
  | n + 1, bodies => fun c => Grammar.assignment n (conditionalIn n bodies) (expressionIn n bodies) c

noncomputable def conditionalIn : Nat → List Body → Reader Expr
  | 0, _ => stuck
  | n + 1, bodies => fun c => Grammar.conditional n (unaryIn n bodies) (conditionalIn n bodies) c

noncomputable def unaryIn : Nat → List Body → Reader Expr
  | 0, _ => stuck
  | n + 1, bodies => fun c =>
    Grammar.unary n (unaryIn n bodies) (expressionIn n bodies) (blockIn n (.function :: bodies)) c

noncomputable def statementIn : Nat → List Body → Reader Stmt
  | 0, _ => stuck
  | n + 1, bodies => fun c => (do
    stopUnless (watch bodies)
    Grammar.statementIn (expressionIn n bodies) (statementIn n bodies) (statementIn n (.loop :: bodies))
      (blockIn n bodies)) c

noncomputable def declarationIn : Nat → List Body → Reader (Option Stmt)
  | 0, _ => stuck
  | n + 1, bodies => fun c =>
    Grammar.declaration n (expressionIn n bodies) (statementIn n bodies) (blockIn n (.function :: bodies)) c

noncomputable def blockIn : Nat → List Body → Reader (List Stmt)
  | 0, _ => stuck
  | n + 1, bodies => fun c => Grammar.block n (declarationIn n bodies) c

end

/-- The reading of a program up to the first statement at whose beginning the condition fails. -/
noncomputable def watched (n : Nat) : Reader (List Stmt) :=
  Grammar.declarations .eof (declarationIn watch n []) n

end watched

end Reader

/-- In the course of reading these tokens a statement begins at the place, in these bodies: a reading that may not go
on there is stuck. -/
def BeginsStatement (ts : List Token) (bodies : List Body) (c : Cursor) : Prop :=
  ∃ d, Reader.watched (fun around place => ¬(around = bodies ∧ place = c)) (Reader.depthPerToken * (ts.length + 1))
    (Cursor.ofTokens ts) = .error .stuck d

end LoxLang
