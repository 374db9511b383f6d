import LoxLang.Frames
import LoxLang.Tree

namespace LoxLang

inductive Native where
  | clock | get | set | add | size
deriving DecidableEq, Repr, Inhabited

namespace Native

def all : List Native := [clock, get, set, add, size]

def name : Native → String
  | clock => "clock"
  | get => "get"
  | set => "set"
  | add => "add"
  | size => "size"

def arity : Native → Nat
  | clock => 0
  | get => 2
  | set => 3
  | add => 2
  | size => 1

end Native

structure Routine where
  name : Option String
  definition : Lambda
  closure : Chain
  isInitializer : Bool

namespace Routine

def arity (r : Routine) : Nat := r.definition.params.length

end Routine

/-- A method here is not bound to an object yet: its closure is that of the class. -/
structure Class where
  name : String
  methods : Bindings Routine

inductive Value where
  | nil
  | bool (b : Bool)
  | number (x : Float)
  | text (s : String)
  | list (id : Nat)
  | native (n : Native)
  | function (id : Nat) (routine : Routine)
  | classDef (id : Nat) (definition : Class)
  | object (id : Nat) (definition : Class)

instance : Inhabited Value := ⟨.nil⟩

namespace Value

def ofLiteral : Literal → Value
  | .nil => nil
  | .bool b => bool b
  | .number x => number x
  | .text s => text s

def truthy : Value → Bool
  | nil | bool false => false
  | _ => true

/-- Values of two kinds are never the same. Numbers compare as numbers, texts by their characters, and
what has an identity by that. -/
def same : Value → Value → Bool
  | nil, nil => true
  | bool a, bool b => a == b
  | number x, number y => x == y
  | text s, text t => s == t
  | list i, list j => i == j
  | native m, native n => m == n
  | function i _, function j _ => i == j
  | classDef i _, classDef j _ => i == j
  | object i _, object j _ => i == j
  | _, _ => false

def functionText : Option String → String
  | some name => "<fn " ++ name ++ ">"
  | none => "<fn>"

def listText (items : List String) : String := "[" ++ ", ".intercalate items ++ "]"

def textWithin (lists : Array (Array Value)) : Nat → Value → Option String
  | _, nil => some "nil"
  | _, bool b => some (if b then "true" else "false")
  | _, number x => some (Number.printText x)
  | _, text s => some s
  | _, native n => some ("<native fn " ++ n.name ++ ">")
  | _, function _ r => some (functionText r.name)
  | _, classDef _ c => some c.name
  | _, object _ c => some (c.name ++ " instance")
  | 0, list _ => none
  | depth + 1, list id =>
    listText <$> (lists[id]?.getD #[]).toList.mapM (textWithin lists depth)

/-- The printed text, none for a list that contains itself: any other nests at most as deep as there
are lists. -/
def text? (lists : Array (Array Value)) (v : Value) : Option String :=
  v.textWithin lists lists.size

end Value

end LoxLang
