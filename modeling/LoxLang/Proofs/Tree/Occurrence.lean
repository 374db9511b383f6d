import Mathlib.Data.List.Basic
import Mathlib.Logic.Relation
import LoxLang.Tree.Scopes

namespace LoxLang

/-- What opens a scope of its own: a block, a function, or a class for the methods in it. -/
inductive Scope where
  | block (body : List Stmt)
  | function (definition : Lambda)
  | object (methods : List Method)

inductive Node where
  | expr (e : Expr)
  | lambda (f : Lambda)
  | stmt (t : Stmt)

def Stmt.declares : Stmt → List String
  | .varDecl name _ | .funDecl name _ | .classDecl name _ => [name.lexeme]
  | _ => []

def declaredNames (ss : List Stmt) : List String := ss.flatMap Stmt.declares

def Scope.names : Scope → List String
  | .block body => declaredNames body
  | .function f => f.params.map Token.lexeme ++ declaredNames f.body
  | .object _ => [selfName]

/-- A scope around a place and the names declared in it before that place, each with whether its
declaration is complete there. -/
structure Level where
  scope : Scope
  seen : Bindings Bool

structure Context where
  levels : List Level := []
  here : Surroundings := {}

namespace Context

/-- What the scopes declare before the place, the innermost first. -/
def seen (Δ : Context) : List (Bindings Bool) := Δ.levels.map Level.seen

def put (Δ : Context) (name : String) (complete : Bool) : Context :=
  match Δ.levels with
  | [] => Δ
  | l :: ls => { Δ with levels := { l with seen := l.seen.put name complete } :: ls }

def enter (Δ : Context) (scope : Scope) (seen : Bindings Bool) : Context :=
  { Δ with levels := ⟨scope, seen⟩ :: Δ.levels }

def withRole (Δ : Context) (role : Role) : Context := { Δ with here := { Δ.here with role } }

def withClass (Δ : Context) : Context := { Δ with here := { Δ.here with inClass := true } }

def withLoop (Δ : Context) (inLoop : Bool) : Context := { Δ with here := { Δ.here with inLoop } }

/-- No declaration before the place has the name in its innermost scope. Among the globals names may
come again. -/
def Free (Δ : Context) (name : String) : Prop := ∀ l ∈ Δ.levels.head?, l.seen.contains name = false

/-- The names that the innermost scope of a place declares, before the place or after it. -/
def names (program : List Stmt) (Δ : Context) : List String :=
  match Δ.levels with
  | [] => declaredNames program
  | l :: _ => l.scope.names

end Context

def Stmt.after (t : Stmt) (Δ : Context) : Context := t.declares.foldl (·.put · true) Δ

def Context.sequence (Δ : Context) : List Stmt → List (Context × Node)
  | [] => []
  | t :: ts => (Δ, .stmt t) :: (t.after Δ).sequence ts

def Method.role (m : Method) : Role :=
  if m.name.lexeme = initializerName then .initializer else .method

def paramsSeen (params : List Token) : Bindings Bool :=
  params.foldl (fun b p => b.put p.lexeme true) ⟨[]⟩

/-- The nodes right below a node, each in its context. -/
def Node.children (Δ : Context) : Node → List (Context × Node)
  | .expr (.assign _ _ e) | .expr (.group e) | .expr (.unary _ e) | .expr (.property e _) =>
    [(Δ, .expr e)]
  | .expr (.binary l _ r) | .expr (.logical l _ r) => [(Δ, .expr l), (Δ, .expr r)]
  | .expr (.ternary c y n _) => [(Δ, .expr c), (Δ, .expr y), (Δ, .expr n)]
  | .expr (.call f _ args) => (Δ, .expr f) :: args.map fun e => (Δ, .expr e)
  | .expr (.setProperty o _ v) => [(Δ, .expr o), (Δ, .expr v)]
  | .expr (.function f) => [(Δ.withRole .function, .lambda f)]
  | .expr (.list es) => es.map fun e => (Δ, .expr e)
  | .expr (.ofStmt t) => [(Δ, .stmt t)]
  | .expr (.literal _) | .expr (.ref _ _) | .expr (.self _ _) | .expr (.stub _) => []
  | .lambda f => ((Δ.enter (.function f) (paramsSeen f.params)).withLoop false).sequence f.body
  | .stmt (.expression e) | .stmt (.print e) | .stmt (.ret _ (some e)) | .stmt (.ofExpr e) =>
    [(Δ, .expr e)]
  | .stmt (.varDecl name (some e)) => [(Δ.put name.lexeme false, .expr e)]
  | .stmt (.funDecl name f) => [((Δ.put name.lexeme true).withRole .function, .lambda f)]
  | .stmt (.classDecl name ms) => ms.map fun m =>
    ((((Δ.put name.lexeme true).enter (.object ms) ⟨[(selfName, true)]⟩).withClass).withRole m.role,
      .lambda m.definition)
  | .stmt (.block ss) => (Δ.enter (.block ss) ⟨[]⟩).sequence ss
  | .stmt (.ifThen c y none) => [(Δ, .expr c), (Δ, .stmt y)]
  | .stmt (.ifThen c y (some n)) => [(Δ, .expr c), (Δ, .stmt y), (Δ, .stmt n)]
  | .stmt (.whileLoop c b none) => [(Δ, .expr c), (Δ.withLoop true, .stmt b)]
  | .stmt (.whileLoop c b (some s)) =>
    [(Δ, .expr c), (Δ.withLoop true, .stmt b), (Δ.withLoop true, .stmt s)]
  | .stmt (.varDecl _ none) | .stmt (.ret _ none) | .stmt (.breakLoop _) | .stmt (.continueLoop _) => []

def Reaches : Context × Node → Context × Node → Prop :=
  Relation.ReflTransGen fun x y => y ∈ x.2.children x.1

def Throughout (P : Context → Node → Prop) (x : Context × Node) : Prop := ∀ y, Reaches x y → P y.1 y.2

theorem throughout_iff (P : Context → Node → Prop) (x : Context × Node) :
    Throughout P x ↔ P x.1 x.2 ∧ ∀ y ∈ x.2.children x.1, Throughout P y := by
  constructor
  · intro h
    exact ⟨h x .refl, fun y hy z hz => h z (.head hy hz)⟩
  · rintro ⟨hx, hchildren⟩ y hy
    obtain rfl | ⟨z, hz, hzy⟩ := Relation.ReflTransGen.cases_head hy
    · exact hx
    · exact hchildren z hz y hzy

theorem throughout_forall (P : Context → Node → Prop) (x : Context × Node) :
    Throughout P x ↔ P x.1 x.2 ∧ (x.2.children x.1).Forall (Throughout P) := by
  rw [throughout_iff, List.forall_iff_forall_mem]

def Occurs (program : List Stmt) (Δ : Context) (j : Node) : Prop :=
  ∃ x ∈ Context.sequence {} program, Reaches x (Δ, j)

theorem Occurs.top {program : List Stmt} {Δ : Context} {j : Node}
    (h : (Δ, j) ∈ Context.sequence {} program) : Occurs program Δ j := ⟨_, h, .refl⟩

theorem Occurs.child {program : List Stmt} {Δ Δ' : Context} {j k : Node} (h : Occurs program Δ j)
    (hk : (Δ', k) ∈ j.children Δ) : Occurs program Δ' k := by
  obtain ⟨x, hx, hr⟩ := h
  exact ⟨x, hx, hr.tail hk⟩

theorem Occurs.of_throughout {program : List Stmt} {P : Context → Node → Prop}
    (h : ∀ x ∈ Context.sequence {} program, Throughout P x) {Δ : Context} {j : Node}
    (ho : Occurs program Δ j) : P Δ j := by
  obtain ⟨x, hx, hr⟩ := ho
  exact h x hx (Δ, j) hr

/-- What holds at the top of a program and passes to the nodes right below holds throughout. -/
theorem Occurs.induction {program : List Stmt} {P : Context → Node → Prop}
    (top : ∀ Δ j, (Δ, j) ∈ Context.sequence {} program → P Δ j)
    (child : ∀ Δ j Δ' k, Occurs program Δ j → P Δ j → (Δ', k) ∈ j.children Δ → P Δ' k)
    {Δ : Context} {j : Node} (h : Occurs program Δ j) : P Δ j := by
  obtain ⟨x, hx, hr⟩ := h
  have hall : ∀ y, Reaches x y → P y.1 y.2 := by
    intro y hy
    induction hy with
    | refl => exact top x.1 x.2 hx
    | tail hxy hyz ih => exact child _ _ _ _ ⟨x, hx, hxy⟩ ih hyz
  exact hall (Δ, j) hr

end LoxLang
