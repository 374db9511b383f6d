import LoxLang.Defect
import LoxLang.Fault

namespace LoxLang

def globals : Chain := .root 0

def nativeBindings : Bindings Value := ⟨Native.all.map fun n => (n.name, .native n)⟩

/-- The readings of a clock, of which a number has been taken. -/
structure Clock where
  reading : Nat → Float
  taken : Nat := 0

namespace Clock

def still (time : Float) : Clock := ⟨fun _ => time, 0⟩

instance {n : Nat} : OfNat Clock n := ⟨still (OfNat.ofNat n)⟩

/-- A clock that moves on by a step from one reading to the next. -/
def ticking (start step : Float) : Clock := ⟨fun i => start + Float.ofNat i * step, 0⟩

def next (c : Clock) : Float := c.reading c.taken

def advance (c : Clock) : Clock := { c with taken := c.taken + 1 }

end Clock

/-- `chain` is where names are looked up now. `fresh` is the next number that tells functions and
classes apart. -/
structure Store where
  frames : Frames Value := ⟨#[nativeBindings]⟩
  chain : Chain := globals
  lists : Array (Array Value) := #[]
  objects : Array (Bindings Value) := #[]
  fresh : Nat := 0
  printed : Array String := #[]
  clock : Clock := 0

instance : Inhabited Store := ⟨{}⟩

theorem Store.native_of_new {clock : Clock} {f : Nat} {name : String} {v : Value}
    (h : (({ clock := clock } : Store).frames.frame f).find? name = some v) : ∃ n, v = .native n := by
  cases f with
  | zero =>
    obtain ⟨before, after, hentries, -⟩ := List.lookup_eq_some_iff.1 h
    have hmem : (name, v) ∈ nativeBindings.entries := by
      rw [show nativeBindings.entries = before ++ (name, v) :: after from hentries]
      simp
    obtain ⟨n, -, hn⟩ := List.mem_map.1 hmem
    exact ⟨n, (Prod.mk.inj hn).2.symm⟩
  | succ f => simp [Frames.frame] at h

/-- Why a run stops early: a fault, a defect, or that there is no end to it within the bound. -/
inductive Stop where
  | fault (f : Fault)
  | defect (d : Defect)
  | endless
deriving DecidableEq, Repr, Inhabited

abbrev Exec := EStateM Stop Store

namespace Store

def printedText (s : Store) : String := s.printed.foldl (fun t line => t ++ line ++ "\n") ""

def items (s : Store) (id : Nat) : Array Value := s.lists[id]?.getD #[]

def fields (s : Store) (id : Nat) : Bindings Value := s.objects[id]?.getD ⟨[]⟩

end Store

namespace Exec

variable {α : Type}

def fault (cause : Fault.Cause) (line : Option Int) : Exec α := throw (.fault ⟨cause, line⟩)

def defect (d : Defect) : Exec α := throw (.defect d)

def endless : Exec α := throw .endless

/-- A fault without a line is blamed on this one. -/
def blaming (line : Int) (p : Exec α) : Exec α := fun s =>
  match p s with
  | .error (.fault ⟨cause, none⟩) s => .error (.fault ⟨cause, some line⟩) s
  | r => r

/-- Looks names up from another chain, and from the old one again however it ends. -/
def within (chain : Chain) (p : Exec α) : Exec α := fun s =>
  let old := s.chain
  match p { s with chain } with
  | .ok a s => .ok a { s with chain := old }
  | .error e s => .error e { s with chain := old }

def chainAfter : EStateM.Result Stop Store α → Chain
  | .ok _ s => s.chain
  | .error _ s => s.chain

@[simp]
theorem chainAfter_within (chain : Chain) (p : Exec α) (s : Store) :
    chainAfter (within chain p s) = s.chain := by
  rw [within]
  cases p { s with chain } <;> rfl

def storeAfter : EStateM.Result Stop Store α → Store
  | .ok _ s | .error _ s => s

theorem chainAfter_eq (r : EStateM.Result Stop Store α) : chainAfter r = (storeAfter r).chain := by
  cases r <;> rfl

def pushFrame (contents : Bindings Value) (outer : Chain) : Exec Chain :=
  modifyGet fun s => (.link s.frames.size outer, { s with frames := s.frames.push contents })

def defineIn (frame : Nat) (name : String) (v : Value) : Exec Unit :=
  modify fun s => { s with frames := s.frames.define frame name v }

def define (name : String) (v : Value) : Exec Unit := do
  defineIn (← get).chain.frame name v

def freshId : Exec Nat := modifyGet fun s => (s.fresh, { s with fresh := s.fresh + 1 })

def newList (items : Array Value) : Exec Value :=
  modifyGet fun s => (.list s.lists.size, { s with lists := s.lists.push items })

def items (id : Nat) : Exec (Array Value) := return (← get).items id

def modifyItems (id : Nat) (f : Array Value → Array Value) : Exec Unit :=
  modify fun s => { s with lists := s.lists.modify id f }

def newObject (c : Class) : Exec Value :=
  modifyGet fun s => (.object s.objects.size c, { s with objects := s.objects.push ⟨[]⟩ })

def setField (id : Nat) (name : String) (v : Value) : Exec Unit :=
  modify fun s => { s with objects := s.objects.modify id (·.put name v) }

def print (text : String) : Exec Unit :=
  modify fun s => { s with printed := s.printed.push text }

def clock : Exec Float := modifyGet fun s => (s.clock.next, { s with clock := s.clock.advance })

def text (v : Value) : Exec String := do
  match v.text? (← get).lists with
  | some t => pure t
  | none => endless

end Exec

end LoxLang
