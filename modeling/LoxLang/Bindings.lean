namespace LoxLang

structure Bindings (α : Type) where
  entries : List (String × α) := []
deriving Repr, Inhabited

namespace Bindings

variable {α : Type}

def find? (b : Bindings α) (name : String) : Option α := b.entries.lookup name

def contains (b : Bindings α) (name : String) : Bool := (b.find? name).isSome

def putEntry (name : String) (value : α) : List (String × α) → List (String × α)
  | [] => [(name, value)]
  | (n, v) :: rest => if name = n then (n, value) :: rest else (n, v) :: putEntry name value rest

/-- Binds a name, in the place of its old binding if there is one. -/
def put (b : Bindings α) (name : String) (value : α) : Bindings α :=
  ⟨putEntry name value b.entries⟩

@[simp]
theorem find?_empty (name : String) : (⟨[]⟩ : Bindings α).find? name = none := rfl

theorem lookup_putEntry (name other : String) (value : α) (entries : List (String × α)) :
    (putEntry name value entries).lookup other =
      if other = name then some value else entries.lookup other := by
  induction entries with
  | nil => by_cases h : other = name <;> simp [putEntry, List.lookup_cons, h, beq_eq_false_iff_ne.2]
  | cons entry rest ih =>
    obtain ⟨n, v⟩ := entry
    by_cases hn : name = n
    · subst hn
      by_cases h : other = name <;> simp [putEntry, List.lookup_cons, h, beq_eq_false_iff_ne.2]
    · by_cases h : other = n
      · subst h
        simp [putEntry, hn, Ne.symm hn]
      · simp [putEntry, hn, List.lookup_cons, beq_eq_false_iff_ne.2 h, ih]

theorem find?_put (b : Bindings α) (name other : String) (value : α) :
    (b.put name value).find? other = if other = name then some value else b.find? other :=
  lookup_putEntry name other value b.entries

def insertSorted (entry : String × α) : List (String × α) → List (String × α)
  | [] => [entry]
  | e :: rest => if entry.1 ≤ e.1 then entry :: e :: rest else e :: insertSorted entry rest

def sorted (b : Bindings α) : List (String × α) := b.entries.foldr insertSorted []

end Bindings

end LoxLang
