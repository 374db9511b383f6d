import LoxLang.Proofs.History.Traced
import LoxLang.Proofs.Receivers.Scenes

namespace LoxLang

def Node.isCall : Node → Bool
  | .expr (.call _ _ _) => true
  | _ => false

/-- A node that has begun and not ended, with the store that it began on. A call has its callee once that is
evaluated, the store after the latest value given to it, and what `this` is in the body that it runs once that has
begun. -/
structure Site where
  node : Node
  store : Store
  callee : Option Value := none
  ready : Store := store
  self : Option Value := none

namespace Site

def atCall (f : Site → Site) (σ : List Site) : List Site :=
  σ.modifyHead fun site => if site.node.isCall then f site else site

/-- The first value given right within a call is its callee, and the others are its arguments. -/
def give (v : Value) (s : Store) : List Site → List Site :=
  atCall fun call => { call with callee := call.callee.or (some v), ready := s }

def enter (a : Option Value) : List Site → List Site := atCall fun call => { call with self := a }

def after (σ : List Site) : Moment → List Site
  | .came (.stmt t) s => { node := .stmt t, store := s } :: enter s.self? σ
  | .came j s => { node := j, store := s } :: σ
  | .gave _ v s => give v s σ.tail
  | .ended _ _ _ | .stopped _ _ _ => σ.tail

@[simp]
theorem length_atCall (f : Site → Site) (σ : List Site) : (atCall f σ).length = σ.length := List.length_modifyHead

theorem enter_enter (a : Option Value) (σ : List Site) : enter a (enter a σ) = enter a σ := by
  cases σ with
  | nil => rfl
  | cons site outer => cases h : site.node.isCall <;> simp [enter, atCall, h]

theorem self_of_enter {a : Option Value} {σ outer : List Site} {call : Site} (h : enter a σ = call :: outer)
    (hcall : call.node.isCall = true) : call.self = a := by
  cases σ with
  | nil => cases h
  | cons site rest =>
    simp only [enter, atCall, List.modifyHead_cons, List.cons.injEq] at h
    obtain ⟨rfl, -⟩ := h
    cases hsite : site.node.isCall <;> simp_all

end Site

/-- The nodes that have begun and not ended, the innermost first. -/
def sites (past : List Moment) : List Site := past.foldl Site.after []

theorem sites_append (past : List Moment) (m : Moment) : sites (past ++ [m]) = Site.after (sites past) m := by
  rw [sites, List.foldl_append]
  rfl

/-- What `this` is in the body that a call runs. -/
inductive Site.Runs (w : Scene) (a : Option Value) (call : Site) : Prop
  | function {i : Nat} {r : Routine} (hcallee : call.callee = some (.function i r)) (ha : w.Self r.closure a)
  | initializer {i id : Nat} {c : Class} (hcallee : call.callee = some (.classDef i c)) (ha : a = some (.object id c))
    (hnew : call.ready.objects.size ≤ id)

/-- What `this` is when a node begins inside these. -/
inductive Begun (w : Scene) (a : Option Value) (σ : List Site) (j : Node) : Prop
  | top (hσ : σ = []) (ha : a = none)
  | inside {site : Site} {outer : List Site} (hσ : σ = site :: outer)
    (hj : (∃ e, j = .expr e) ∨ ∃ u, site.node = .stmt u) (ha : a = site.store.self?)
  | body {call : Site} {outer : List Site} {t : Stmt} (hσ : σ = call :: outer) (hcall : call.node.isCall = true)
    (hj : j = .stmt t) (h : call.Runs w a)

/-- What an object has under a name: a field, or a method with a frame of its own that holds the object alone. -/
inductive Fetched (a : Value) (name : Token) (s s' : Store) (v : Value) : Prop
  | field {id : Nat} {c : Class} (ha : a = .object id c) (hv : (s.fields id).find? name.lexeme = some v)
  | method {id i : Nat} {c : Class} {r : Routine} (ha : a = .object id c)
    (hfield : (s.fields id).find? name.lexeme = none) (hr : c.methods.find? name.lexeme = some r)
    (hinit : r.isInitializer = decide (name.lexeme = initializerName))
    (hv : v = .function i { r with closure := .link s.frames.size r.closure })
    (hframe : s'.frames.frame s.frames.size = ⟨[(selfName, a)]⟩)
    (hself : s'.scene.Self (.link s.frames.size r.closure) (some a))

/-- What a call gives. A class gives a new object of it, which is `this` in the initializer, and an initializer gives
the object in its innermost frame. -/
structure Called (call : Site) (s : Store) (v : Value) : Prop where
  object : ∀ i c, call.callee = some (.classDef i c) → ∃ id, v = .object id c ∧ call.ready.objects.size ≤ id ∧
    id < s.objects.size ∧ ∀ a, call.self = some a → a = v
  initializer : ∀ i r, call.callee = some (.function i r) → r.isInitializer = true →
    ∃ f outer, r.closure = .link f outer ∧ s.frames.frame f = ⟨[(selfName, v)]⟩

def MadeAt (σ : List Site) (s : Store) (v : Value) : Prop :=
  ∃ site outer i r, σ = site :: outer ∧ v = .function i r ∧ s.scene.Self r.closure site.store.self?

/-- What an expression gives, after what happened before. -/
def Given (past : List Moment) (s : Store) (v : Value) : Expr → Prop
  | .self _ _ => ∃ site outer, sites past = site :: outer ∧ site.store.self? = some v
  | .function _ => MadeAt (sites past) s v
  | .property o name => ∃ earlier a s₀, past = earlier ++ [.gave o a s₀] ∧ Fetched a name s₀ s v
  | .call f paren args => ∃ call outer, sites past = call :: outer ∧ call.node = .expr (.call f paren args) ∧
    Called call s v
  | _ => True

def Moment.Apt (past : List Moment) : Moment → Prop
  | .came j s => Begun s.scene s.self? (sites past) j
  | .gave e v s => Given past s v e
  | .ended (.funDecl name _) .normal s =>
    ∃ v, (s.frames.frame s.chain.frame).find? name.lexeme = some v ∧ MadeAt (sites past) s v
  | .stopped (.expr (.self _ _)) e _ =>
    e = .endless ∨ ∃ site outer, sites past = site :: outer ∧ site.store.self? = none
  | _ => True

inductive Store.Present (s : Store) (id : Nat) : Prop
  | named {f : Nat} {name : String} {c : Class} (h : (s.frames.frame f).find? name = some (.object id c))
  | item {list : Nat} {c : Class} (h : .object id c ∈ s.items list)
  | field {object : Nat} {name : String} {c : Class} (h : (s.fields object).find? name = some (.object id c))

structure Received (past : List Moment) (m : Moment) : Prop where
  later : ∀ m' ∈ past, m'.store.scene.Later m.store.scene
  selves : ∀ f, (m.store.frames.frame f).contains selfName = true → ∃ id c, m.store.scene.Binds f (.object id c)
  present : ∀ id, m.store.Present id → id < m.store.objects.size
  apt : m.Apt past

structure Safe (x : Store × List Moment) : Prop where
  top : x.1.scene.Plain 0
  frames : ∀ f name v, (x.1.frames.frame f).find? name = some v → v.Known x.1.scene
  lists : ∀ id, ∀ v ∈ x.1.items id, v.Known x.1.scene
  fields : ∀ id name v, (x.1.fields id).find? name = some v → v.Known x.1.scene
  selves : ∀ f, (x.1.frames.frame f).contains selfName = true → ∃ id c, x.1.scene.Binds f (.object id c)
  past : ∀ m ∈ x.2, m.store.scene.Later x.1.scene
  told : ∀ earlier m later, x.2 = earlier ++ m :: later → Received earlier m

/-- The second of two states comes of the first, on the same chain and inside as many nodes. -/
structure Onward (x y : Store × List Moment) : Prop where
  safe : Safe y
  later : x.1.scene.Later y.1.scene
  chain : y.1.chain = x.1.chain
  depth : (sites y.2).length = (sites x.2).length

end LoxLang
