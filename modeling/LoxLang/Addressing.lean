import LoxLang.Store

namespace LoxLang

/-- How the variables of a tree are found, from the name and the number of scopes counted for it. -/
structure Addressing where
  read : Token → Option Nat → Exec Value
  write : Token → Option Nat → Value → Exec Unit

namespace Exec

def find (name : Token) (chain : Chain) : Exec Value := do
  match (← get).frames.find? name.lexeme chain with
  | some v => pure v
  | none => fault (.undefinedVariable name.lexeme) name.line

def assign (name : Token) (v : Value) (chain : Chain) : Exec Unit := do
  match (← get).frames.holder? name.lexeme chain with
  | some f => defineIn f name.lexeme v
  | none => fault (.undefinedVariable name.lexeme) name.line

/-- A frame so many links out may not hold the name yet, which reads as nil. -/
def findAt (name : Token) (distance : Nat) : Exec Value := do
  let s ← get
  match s.frames.findAt? s.chain distance name.lexeme with
  | some v => pure (v.getD .nil)
  | none => defect .invalidDistance

def assignAt (name : Token) (v : Value) (distance : Nat) : Exec Unit := do
  match (← get).chain.out? distance with
  | some chain => defineIn chain.frame name.lexeme v
  | none => defect .invalidDistance

end Exec

namespace Addressing

def byDistance : Addressing where
  read name
    | some d => Exec.findAt name d
    | none => Exec.find name globals
  write name hops v :=
    match hops with
    | some d => Exec.assignAt name v d
    | none => Exec.assign name v globals

def byName : Addressing where
  read name _ := do Exec.find name (← get).chain
  write name _ v := do Exec.assign name v (← get).chain

end Addressing

end LoxLang
