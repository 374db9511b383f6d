import LoxLang.Tree.Grammar.Statement

namespace LoxLang

namespace Reader

mutual

def expression : Nat → Reader Expr
  | 0 => stuck
  | n + 1 => fun c => Grammar.assignment n (conditional n) (expression n) c

def conditional : Nat → Reader Expr
  | 0 => stuck
  | n + 1 => fun c => Grammar.conditional n (unary n) (conditional n) c

def unary : Nat → Reader Expr
  | 0 => stuck
  | n + 1 => fun c => Grammar.unary n (unary n) (expression n) (block n) c

def statement : Nat → Reader Stmt
  | 0 => stuck
  | n + 1 => fun c => Grammar.statement (expression n) (statement n) (block n) c

def declaration : Nat → Reader (Option Stmt)
  | 0 => stuck
  | n + 1 => fun c => Grammar.declaration n (expression n) (statement n) (block n) c

def block : Nat → Reader (List Stmt)
  | 0 => stuck
  | n + 1 => fun c => Grammar.block n (declaration n) c

end

/-- No rule goes through more than this many others before it takes a token. -/
def depthPerToken : Nat := 8

def program (n : Nat) : Reader (List Stmt) := Grammar.declarations .eof (declaration n) n

end Reader

/-- What was read, none if reading got stuck, and the reports in order. -/
def parse (ts : List Token) : Option (List Stmt) × List Report :=
  match Reader.program (Reader.depthPerToken * (ts.length + 1)) (Cursor.ofTokens ts) with
  | .ok ss c => (some ss, c.reports.reverse)
  | .error _ c => (none, c.reports.reverse)

end LoxLang
