import LoxLang.Token

namespace LoxLang

/-- A node without a form of its own: it says only what it stands for. -/
inductive Stub where
  | expression | statement | object
deriving DecidableEq, Repr, Inhabited

def Stub.name : Stub → String
  | .expression => "Expr"
  | .statement => "Stmt"
  | .object => "object"

mutual

inductive Expr where
  | literal (value : Literal)
  | ref (name : Token) (hops : Option Nat)
  | self (keyword : Token) (hops : Option Nat)
  | assign (name : Token) (hops : Option Nat) (value : Expr)
  | group (inner : Expr)
  | unary (op : Token) (operand : Expr)
  | binary (left : Expr) (op : Token) (right : Expr)
  | logical (left : Expr) (op : Token) (right : Expr)
  | ternary (selector yes no : Expr) (line : Int)
  | call (callee : Expr) (paren : Token) (arguments : List Expr)
  | property (object : Expr) (name : Token)
  | setProperty (object : Expr) (name : Token) (value : Expr)
  | function (definition : Lambda)
  | list (elements : List Expr)
  | ofStmt (statement : Stmt)
  | stub (s : Stub)

inductive Lambda where
  | mk (params : List Token) (body : List Stmt)

inductive Method where
  | mk (name : Token) (definition : Lambda)

/-- The step of a loop runs after each pass, also one that was cut short. -/
inductive Stmt where
  | expression (e : Expr)
  | print (e : Expr)
  | varDecl (name : Token) (initial : Option Expr)
  | funDecl (name : Token) (definition : Lambda)
  | classDecl (name : Token) (methods : List Method)
  | block (body : List Stmt)
  | ifThen (condition : Expr) (yes : Stmt) (no : Option Stmt)
  | whileLoop (condition : Expr) (body : Stmt) (step : Option Stmt)
  | ret (keyword : Token) (value : Option Expr)
  | breakLoop (keyword : Token)
  | continueLoop (keyword : Token)
  | ofExpr (e : Expr)

end

instance : Inhabited Expr := ⟨.literal .nil⟩

instance : Inhabited Stmt := ⟨.block []⟩

instance : Inhabited Lambda := ⟨⟨[], []⟩⟩

instance : Inhabited Method := ⟨⟨default, default⟩⟩

namespace Lambda

def params : Lambda → List Token
  | mk ps _ => ps

def body : Lambda → List Stmt
  | mk _ ss => ss

end Lambda

namespace Method

def name : Method → Token
  | mk n _ => n

def definition : Method → Lambda
  | mk _ f => f

end Method

def initializerName : String := "init"

def selfName : String := "this"

def Expr.ungroup : Expr → Expr
  | .group e => e.ungroup
  | e => e

end LoxLang
