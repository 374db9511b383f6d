import LoxLang.Bindings

namespace LoxLang

/-- A frame and the frames around it, innermost first. -/
inductive Chain where
  | root (frame : Nat)
  | link (frame : Nat) (outer : Chain)
deriving DecidableEq, Repr, Inhabited

namespace Chain

def frame : Chain → Nat
  | .root f => f
  | .link f _ => f

def links : Chain → Nat
  | .root _ => 0
  | .link _ outer => outer.links + 1

def out? : Chain → Nat → Option Chain
  | c, 0 => some c
  | .root _, _ + 1 => none
  | .link _ outer, d + 1 => outer.out? d

theorem out?_eq_none_iff (c : Chain) (d : Nat) : c.out? d = none ↔ c.links < d := by
  induction c generalizing d with
  | root f => cases d <;> simp [out?, links]
  | link f outer ih => cases d <;> simp [out?, links, ih]

end Chain

structure Frames (α : Type) where
  slots : Array (Bindings α) := #[]
deriving Repr, Inhabited

namespace Frames

variable {α : Type}

def size (fs : Frames α) : Nat := fs.slots.size

/-- The frame of a number; one that was never made holds nothing. -/
def frame (fs : Frames α) (f : Nat) : Bindings α := fs.slots[f]?.getD ⟨[]⟩

def push (fs : Frames α) (contents : Bindings α) : Frames α := ⟨fs.slots.push contents⟩

def define (fs : Frames α) (f : Nat) (name : String) (value : α) : Frames α :=
  ⟨fs.slots.modify f (·.put name value)⟩

@[simp]
theorem size_push (fs : Frames α) (contents : Bindings α) : (fs.push contents).size = fs.size + 1 := by
  simp [push, size]

@[simp]
theorem size_define (fs : Frames α) (f : Nat) (name : String) (value : α) :
    (fs.define f name value).size = fs.size := by
  simp [define, size]

theorem frame_push (fs : Frames α) (contents : Bindings α) (f : Nat) :
    (fs.push contents).frame f = if f = fs.size then contents else fs.frame f := by
  by_cases h : f = fs.size <;> simp_all [push, frame, size, Array.getElem?_push]

theorem frame_define (fs : Frames α) (f g : Nat) (name : String) (value : α) :
    (fs.define f name value).frame g =
      if g = f ∧ f < fs.size then (fs.frame f).put name value else fs.frame g := by
  by_cases h : g = f
  · subst h
    by_cases hg : g < fs.size
    · simp only [size] at hg
      simp [define, frame, size, hg, Array.getElem_modify]
    · simp only [size] at hg
      simp [define, frame, size, hg]
  · simp [define, frame, h, Array.getElem?_modify, Ne.symm h]

def find? (fs : Frames α) (name : String) : Chain → Option α
  | .root f => (fs.frame f).find? name
  | .link f outer => ((fs.frame f).find? name).or (fs.find? name outer)

def holder? (fs : Frames α) (name : String) : Chain → Option Nat
  | .root f => if (fs.frame f).contains name then some f else none
  | .link f outer => if (fs.frame f).contains name then some f else fs.holder? name outer

def assign? (fs : Frames α) (chain : Chain) (name : String) (value : α) : Option (Frames α) :=
  (fs.holder? name chain).map fun f => fs.define f name value

/-- The binding in the frame so many links out: the outer option says whether that frame exists,
the inner one whether it holds the name. -/
def findAt? (fs : Frames α) (chain : Chain) (distance : Nat) (name : String) : Option (Option α) :=
  (chain.out? distance).map fun c => (fs.frame c.frame).find? name

/-- Binds a name in the frame so many links out, whether or not it was bound there. -/
def assignAt? (fs : Frames α) (chain : Chain) (distance : Nat) (name : String) (value : α) :
    Option (Frames α) :=
  (chain.out? distance).map fun c => fs.define c.frame name value

end Frames

end LoxLang
