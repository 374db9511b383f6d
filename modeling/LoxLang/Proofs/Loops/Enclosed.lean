import Mathlib.Logic.Relation
import LoxLang.Proofs.Reading.TreeLaw
import LoxLang.Proofs.Tree.Occurrence

namespace LoxLang

open Body

/-- The nodes right below a node that stands in these bodies, each with the bodies that it stands in. -/
def Node.enclosed (bodies : List Body) : Node → List (List Body × Node)
  | .expr (.assign _ _ e) | .expr (.group e) | .expr (.unary _ e) | .expr (.property e _) => [(bodies, .expr e)]
  | .expr (.binary l _ r) | .expr (.logical l _ r) => [(bodies, .expr l), (bodies, .expr r)]
  | .expr (.ternary c y n _) => [(bodies, .expr c), (bodies, .expr y), (bodies, .expr n)]
  | .expr (.call f _ args) => (bodies, .expr f) :: args.map fun e => (bodies, .expr e)
  | .expr (.setProperty o _ v) => [(bodies, .expr o), (bodies, .expr v)]
  | .expr (.function f) => [(bodies, .lambda f)]
  | .expr (.list es) => es.map fun e => (bodies, .expr e)
  | .expr (.ofStmt t) => [(bodies, .stmt t)]
  | .expr (.literal _) | .expr (.ref _ _) | .expr (.self _ _) | .expr (.stub _) => []
  | .lambda f => f.body.map fun t => (.function :: bodies, .stmt t)
  | .stmt (.expression e) | .stmt (.print e) | .stmt (.ofExpr e) => [(bodies, .expr e)]
  | .stmt (.varDecl _ value) | .stmt (.ret _ value) => value.toList.map fun e => (bodies, .expr e)
  | .stmt (.funDecl _ f) => [(bodies, .lambda f)]
  | .stmt (.classDecl _ ms) => ms.map fun m => (bodies, .lambda m.definition)
  | .stmt (.block ss) => ss.map fun t => (bodies, .stmt t)
  | .stmt (.ifThen c y no) => (bodies, .expr c) :: (bodies, .stmt y) :: no.toList.map fun t => (bodies, .stmt t)
  | .stmt (.whileLoop c b step) =>
    (bodies, .expr c) :: (.loop :: bodies, .stmt b) :: step.toList.map fun t => (bodies, .stmt t)
  | .stmt (.breakLoop _) | .stmt (.continueLoop _) => []

def Node.IsJump : Node → Prop
  | .stmt (.breakLoop _) | .stmt (.continueLoop _) => True
  | _ => False

def Encloses : List Body × Node → List Body × Node → Prop :=
  Relation.ReflTransGen fun x y => y ∈ x.2.enclosed x.1

/-- A node of the program stands in these bodies. -/
def StandsIn (program : List Stmt) (bodies : List Body) (j : Node) : Prop :=
  ∃ t ∈ program, Encloses ([], .stmt t) (bodies, j)

/-- At the node and at all below it, jumps stand in the body of a loop in their function. -/
def JumpsInside (x : List Body × Node) : Prop := ∀ y, Encloses x y → y.2.IsJump → insideLoop y.1 = true

theorem jumpsInside_iff (x : List Body × Node) :
    JumpsInside x ↔ (x.2.IsJump → insideLoop x.1 = true) ∧ ∀ y ∈ x.2.enclosed x.1, JumpsInside y := by
  constructor
  · intro h
    exact ⟨h x .refl, fun y hy z hz => h z (.head hy hz)⟩
  · rintro ⟨hx, hbelow⟩ y hy
    obtain rfl | ⟨z, hz, hzy⟩ := Relation.ReflTransGen.cases_head hy
    · exact hx
    · exact hbelow z hz y hzy

theorem JumpsInside.of_enclosed {x : List Body × Node} (hx : ¬x.2.IsJump)
    (h : ∀ y ∈ x.2.enclosed x.1, JumpsInside y) : JumpsInside x :=
  (jumpsInside_iff x).2 ⟨fun hjump => absurd hjump hx, h⟩

theorem JumpsInside.below {x y : List Body × Node} (h : JumpsInside x) (hy : y ∈ x.2.enclosed x.1) : JumpsInside y :=
  ((jumpsInside_iff x).1 h).2 y hy

/-- The rules of the grammar keep jumps inside loops, whatever the tokens are. -/
def jumpsLaw (ts : List Token) : TreeLaw ts where
  expr e := ∀ bodies, JumpsInside (bodies, .expr e)
  lambda f := ∀ bodies, JumpsInside (bodies, .lambda f)
  stmt loop t := ∀ bodies, insideLoop bodies = loop → JumpsInside (bodies, .stmt t)
  plain loop t := ∀ bodies, insideLoop bodies = loop → JumpsInside (bodies, .stmt t)
  constant _ bodies := .of_enclosed id nofun
  literal _ _ bodies := .of_enclosed id nofun
  ref _ _ bodies := .of_enclosed id nofun
  self _ _ bodies := .of_enclosed id nofun
  assign _ hv bodies := .of_enclosed id (by simpa [Node.enclosed] using hv bodies)
  group he bodies := .of_enclosed id (by simpa [Node.enclosed] using he bodies)
  unary _ _ he bodies := .of_enclosed id (by simpa [Node.enclosed] using he bodies)
  binary _ _ hl hr bodies := .of_enclosed id (by simpa [Node.enclosed] using ⟨hl bodies, hr bodies⟩)
  logical _ _ hl hr bodies := .of_enclosed id (by simpa [Node.enclosed] using ⟨hl bodies, hr bodies⟩)
  ternary _ hc hy hn bodies := .of_enclosed id (by simpa [Node.enclosed] using ⟨hc bodies, hy bodies, hn bodies⟩)
  call _ _ he hes bodies := .of_enclosed id (by simpa [Node.enclosed] using ⟨he bodies, fun d hd => hes d hd bodies⟩)
  property _ _ ho bodies := .of_enclosed id (by simpa [Node.enclosed] using ho bodies)
  setProperty ho hv bodies :=
    .of_enclosed id (by simpa [Node.enclosed] using ⟨(ho bodies).below (by simp [Node.enclosed]), hv bodies⟩)
  function hf bodies := .of_enclosed id (by simpa [Node.enclosed] using hf bodies)
  list hes bodies := .of_enclosed id (by simpa [Node.enclosed] using fun d hd => hes d hd bodies)
  definition _ hbody bodies :=
    .of_enclosed id (by simpa [Node.enclosed, Lambda.body] using fun t ht => hbody t ht (.function :: bodies) (by simp))
  of_plain := id
  expression he bodies _ := .of_enclosed id (by simpa [Node.enclosed] using he bodies)
  print he bodies _ := .of_enclosed id (by simpa [Node.enclosed] using he bodies)
  ret _ _ h bodies _ := .of_enclosed id (by simpa [Node.enclosed] using fun e he => h e he bodies)
  block h bodies hloop := .of_enclosed id (by simpa [Node.enclosed] using fun t ht => h t ht bodies hloop)
  ifThen hc ht hn bodies hloop := .of_enclosed id (by
    simpa [Node.enclosed] using ⟨hc bodies, ht bodies hloop, fun u hu => hn u hu bodies hloop⟩)
  whileLoop {loop c b step} hc hb hs bodies hloop := .of_enclosed id (by
    have hstep : ∀ e, step = some e → JumpsInside (bodies, .stmt (.expression e)) := fun e he =>
      .of_enclosed id (by simpa [Node.enclosed] using hs e he bodies)
    simpa [Node.enclosed] using ⟨hc bodies, hb (.loop :: bodies) (by simp), hstep⟩)
  breakLoop _ _ bodies hloop := (jumpsInside_iff _).2 ⟨fun _ => hloop, nofun⟩
  continueLoop _ _ bodies hloop := (jumpsInside_iff _).2 ⟨fun _ => hloop, nofun⟩
  varDecl _ _ h bodies _ := .of_enclosed id (by simpa [Node.enclosed] using fun e he => h e he bodies)
  funDecl _ _ hf bodies _ := .of_enclosed id (by simpa [Node.enclosed] using hf bodies)
  classDecl _ _ h bodies _ := .of_enclosed id (by simpa [Node.enclosed] using fun m hm => (h m hm).2 bodies)

theorem parse_jumpsInside {ts : List Token} {ss : List Stmt} (h : (parse ts).1 = some ss) :
    ∀ t ∈ ss, JumpsInside ([], .stmt t) := by
  intro t ht
  have hlaw : ∀ bodies, insideLoop bodies = false → JumpsInside (bodies, .stmt t) :=
    (jumpsLaw ts).parse h t ht
  exact hlaw [] rfl

end LoxLang
