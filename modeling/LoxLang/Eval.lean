import LoxLang.Evaluator

namespace LoxLang

mutual

def evaluate (a : Addressing) : Nat → Expr → Exec Value
  | 0, _ => Exec.endless
  | n + 1, e => fun s => Evaluator.evalRule ⟨a, n, evaluate a n, execute a n⟩ e s

def execute (a : Addressing) : Nat → Stmt → Exec Outcome
  | 0, _ => Exec.endless
  | n + 1, t => fun s => Evaluator.execRule ⟨a, n, evaluate a n, execute a n⟩ t s

end

/-- A program's statements in order; how each ends does not matter at the top. -/
def runProgram (a : Addressing) (fuel : Nat) : List Stmt → Exec Unit
  | [] => pure ()
  | s :: ss => do
    let _ ← execute a fuel s
    runProgram a fuel ss

end LoxLang
