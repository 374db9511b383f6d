import LoxLang.Proofs.Tree.Address

namespace LoxLang

/-- A scope around a place: the names that it has from its start, the statements in it, and the number of
the statement in which the place lies. -/
structure Enclosing where
  names : List String
  body : List Stmt
  index : Nat

/-- The scope that a node opens around its part of this number. Globals are in no scope. -/
def Node.scope? (index : Nat) : Node → Option Enclosing
  | .lambda f => some ⟨f.params.map Token.lexeme, f.body, index⟩
  | .stmt (.block ss) => some ⟨[], ss, index⟩
  | .stmt (.classDecl _ _) => some ⟨[selfName], [], index⟩
  | _ => none

/-- The scopes along a path outward, the innermost first. -/
def scopesOn (path : List (Node × Nat)) : List Enclosing := path.filterMap fun x => x.1.scope? x.2

def Stmt.Initial (t : Stmt) : Prop := ∃ name e, t = .varDecl name (some e)

/-- A scope declares a name by a declaration that starts before the place. In the innermost scope the
initial value of a variable comes before its declaration. -/
def Enclosing.Declares (s : Enclosing) (innermost : Prop) (name : String) : Prop :=
  name ∈ s.names ∨ ∃ k t, s.body[k]? = some t ∧ name ∈ t.declares ∧ k ≤ s.index ∧
    ¬ (innermost ∧ k = s.index ∧ t.Initial)

/-- Of scopes from the innermost outward, number `i` is the first to declare a name. -/
def Found (scopes : List Enclosing) (name : String) (i : Nat) : Prop :=
  (∃ s, scopes[i]? = some s ∧ s.Declares (i = 0) name) ∧
    ∀ k < i, ∀ s, scopes[k]? = some s → ¬ s.Declares (k = 0) name

/-- All that the scope of a node declares, parameters with what is directly in the body. -/
def Node.declared : Node → List String
  | .lambda f => f.params.map Token.lexeme ++ declaredNames f.body
  | .stmt (.block ss) => declaredNames ss
  | _ => []

/-- Some function is on the way out. -/
def InFunction (path : List (Node × Nat)) : Prop := ∃ f i, (Node.lambda f, i) ∈ path

def InClass (path : List (Node × Nat)) : Prop := ∃ name ms i, (Node.stmt (.classDecl name ms), i) ∈ path

/-- The first function on the way out is a method that initializes objects. -/
def InInitializer (path : List (Node × Nat)) : Prop :=
  ∃ inner f i name ms k m outer, path = inner ++ (.lambda f, i) :: (.stmt (.classDecl name ms), k) :: outer ∧
    ¬ InFunction inner ∧ ms[k]? = some m ∧ m.name.lexeme = initializerName

structure WellScoped (program : List Stmt) : Prop where
  /-- No scope declares a name twice. -/
  once : ∀ address j, nodeAt program address = some j → j.declared.Nodup
  /-- A local variable is not its own initial value. -/
  initial : ∀ address name e, nodeAt program address = some (.stmt (.varDecl name (some e))) →
    scopesOn (above program address) ≠ [] → e.bare? ≠ some name.lexeme
  returns : ∀ address keyword value, nodeAt program address = some (.stmt (.ret keyword value)) →
    InFunction (above program address)
  valued : ∀ address keyword e, nodeAt program address = some (.stmt (.ret keyword (some e))) →
    ¬ InInitializer (above program address)
  self : ∀ address keyword hops, nodeAt program address = some (.expr (.self keyword hops)) →
    InClass (above program address)

def Enclosing.uncounted (s : Enclosing) : Enclosing := { s with body := s.body.map Stmt.uncounted }

theorem Stmt.initial_uncounted (t : Stmt) : t.uncounted.Initial ↔ t.Initial := by
  cases t with
  | varDecl name initial => cases initial <;> simp [Initial, Stmt.uncounted]
  | ifThen c y no => cases no <;> simp [Initial, Stmt.uncounted]
  | whileLoop c b step => cases step <;> simp [Initial, Stmt.uncounted]
  | ret keyword value => cases value <;> simp [Initial, Stmt.uncounted]
  | _ => simp [Initial, Stmt.uncounted]

theorem Enclosing.declares_uncounted (s : Enclosing) (innermost : Prop) (name : String) :
    s.uncounted.Declares innermost name ↔ s.Declares innermost name := by
  refine or_congr Iff.rfl (exists_congr fun k => ?_)
  rw [uncounted, List.getElem?_map]
  cases s.body[k]? with
  | none => simp
  | some t => simp [Stmt.initial_uncounted]

theorem Node.scope?_uncounted (j : Node) (i : Nat) : j.uncounted.scope? i = (j.scope? i).map Enclosing.uncounted := by
  cases j with
  | expr e => rfl
  | lambda f =>
    obtain ⟨params, body⟩ := f
    simp [Node.uncounted, Lambda.uncounted, scope?, Enclosing.uncounted, Lambda.params, Lambda.body]
  | stmt t =>
    cases t with
    | varDecl name initial => cases initial <;> rfl
    | ifThen c y no => cases no <;> rfl
    | whileLoop c b step => cases step <;> rfl
    | ret keyword value => cases value <;> rfl
    | _ => simp [Node.uncounted, Stmt.uncounted, scope?, Enclosing.uncounted]

theorem scopesOn_uncounted (path : List (Node × Nat)) :
    scopesOn (path.map (Prod.map Node.uncounted id)) = (scopesOn path).map Enclosing.uncounted := by
  rw [scopesOn, scopesOn, List.filterMap_map, List.map_filterMap]
  exact congrArg (List.filterMap · path) (funext fun x => x.1.scope?_uncounted x.2)

theorem found_uncounted (scopes : List Enclosing) (name : String) (i : Nat) :
    Found (scopes.map Enclosing.uncounted) name i ↔ Found scopes name i := by
  simp only [Found, List.getElem?_map, Option.map_eq_some_iff, forall_exists_index, and_imp,
    forall_apply_eq_imp_iff₂, Enclosing.declares_uncounted, exists_exists_and_eq_and]

/-- Which declaration a mention means does not depend on the scopes counted in the tree. -/
theorem found_of_uncounted {program bound : List Stmt} (h : bound.map Stmt.uncounted = program.map Stmt.uncounted)
    (address : List Nat) (name : String) (i : Nat) :
    Found (scopesOn (above bound address)) name i ↔ Found (scopesOn (above program address)) name i := by
  rw [← found_uncounted, ← found_uncounted (scopesOn (above program address)), ← scopesOn_uncounted,
    ← scopesOn_uncounted, ← above_uncounted, ← above_uncounted, h]

end LoxLang
