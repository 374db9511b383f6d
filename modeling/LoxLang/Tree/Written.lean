import LoxLang.Tree

namespace LoxLang

def Literal.written : Literal → String
  | .nil => "nil"
  | .bool b => if b then "true" else "false"
  | .number x => Number.treeText x
  | .text s => "\"" ++ s ++ "\""

def listed (head : String) (parts : List String) : String :=
  "(" ++ " ".intercalate (head :: parts) ++ ")"

def paramList (params : List Token) : String :=
  "(" ++ " ".intercalate (params.map Token.lexeme) ++ ")"

mutual

def Expr.written : Expr → String
  | .literal v => v.written
  | .ref name _ => name.lexeme
  | .self _ _ => "this"
  | .assign name _ value => listed ("= " ++ name.lexeme) [value.written]
  | .group e => listed "group" [e.written]
  | .unary op e => listed op.lexeme [e.written]
  | .binary l op r => listed op.lexeme [l.written, r.written]
  | .logical l op r => listed op.lexeme [l.written, r.written]
  | .ternary c y n _ => listed "?:" [c.written, y.written, n.written]
  | .call f _ args => listed "call" (f.written :: writtenExprs args)
  | .property o name => listed (". " ++ name.lexeme) [o.written]
  | .setProperty o name v => listed (".= " ++ name.lexeme) [o.written, v.written]
  | .function f => f.written "fun"
  | .list es => listed "list" (writtenExprs es)
  | .ofStmt s => s.written
  | .stub s => s.name

def writtenExprs : List Expr → List String
  | [] => []
  | e :: es => e.written :: writtenExprs es

def Lambda.written : Lambda → String → String
  | .mk params body, head => listed (head ++ " " ++ paramList params) (writtenStmts body)

def Stmt.written : Stmt → String
  | .expression e => listed ";" [e.written]
  | .print e => listed "print" [e.written]
  | .varDecl name none => listed ("var " ++ name.lexeme) []
  | .varDecl name (some e) => listed ("var " ++ name.lexeme) [e.written]
  | .funDecl name f => f.written ("fun " ++ name.lexeme)
  | .classDecl name methods => listed ("class " ++ name.lexeme) (writtenMethods methods)
  | .block ss => listed "block" (writtenStmts ss)
  | .ifThen c y none => listed "if" [c.written, y.written]
  | .ifThen c y (some n) => listed "if" [c.written, y.written, n.written]
  | .whileLoop c b none => listed "while" [c.written, b.written]
  | .whileLoop c b (some s) => listed "while" [c.written, b.written, s.written]
  | .ret _ none => listed "return" []
  | .ret _ (some e) => listed "return" [e.written]
  | .breakLoop _ => listed "break" []
  | .continueLoop _ => listed "continue" []
  | .ofExpr e => e.written

def writtenStmts : List Stmt → List String
  | [] => []
  | s :: ss => s.written :: writtenStmts ss

def writtenMethods : List Method → List String
  | [] => []
  | .mk name f :: ms => f.written ("fun " ++ name.lexeme) :: writtenMethods ms

end

mutual

def Expr.stub? : Expr → Option Stub
  | .literal _ | .ref _ _ | .self _ _ => none
  | .assign _ _ e | .group e | .unary _ e | .property e _ => e.stub?
  | .binary l _ r | .logical l _ r | .setProperty l _ r => l.stub?.or r.stub?
  | .ternary c y n _ => c.stub?.or (y.stub?.or n.stub?)
  | .call f _ args => f.stub?.or (stubOfExprs? args)
  | .function f => f.stub?
  | .list es => stubOfExprs? es
  | .ofStmt s => s.stub?
  | .stub s => some s

def stubOfExprs? : List Expr → Option Stub
  | [] => none
  | e :: es => e.stub?.or (stubOfExprs? es)

def Lambda.stub? : Lambda → Option Stub
  | .mk _ body => stubOfStmts? body

def Stmt.stub? : Stmt → Option Stub
  | .expression e | .print e | .ofExpr e => e.stub?
  | .varDecl _ none | .ret _ none | .breakLoop _ | .continueLoop _ => none
  | .varDecl _ (some e) | .ret _ (some e) => e.stub?
  | .funDecl _ f => f.stub?
  | .classDecl _ methods => stubOfMethods? methods
  | .block ss => stubOfStmts? ss
  | .ifThen c y none => c.stub?.or y.stub?
  | .ifThen c y (some n) => c.stub?.or (y.stub?.or n.stub?)
  | .whileLoop c b none => c.stub?.or b.stub?
  | .whileLoop c b (some s) => c.stub?.or (b.stub?.or s.stub?)

def stubOfStmts? : List Stmt → Option Stub
  | [] => none
  | s :: ss => s.stub?.or (stubOfStmts? ss)

def stubOfMethods? : List Method → Option Stub
  | [] => none
  | .mk _ f :: ms => f.stub?.or (stubOfMethods? ms)

end

def writtenProgram (ss : List Stmt) : String := "\n".intercalate (writtenStmts ss)

end LoxLang
