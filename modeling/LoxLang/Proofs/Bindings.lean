import LoxLang.Bindings

namespace LoxLang.Bindings

variable {α : Type}

theorem putEntry_putEntry (name : String) (v w : α) (entries : List (String × α)) :
    putEntry name w (putEntry name v entries) = putEntry name w entries := by
  induction entries with
  | nil => simp [putEntry]
  | cons entry rest ih =>
    obtain ⟨n, u⟩ := entry
    by_cases h : name = n <;> simp [putEntry, h, ih]

@[simp]
theorem put_put (b : Bindings α) (name : String) (v w : α) : (b.put name v).put name w = b.put name w := by
  simp [put, putEntry_putEntry]

theorem contains_put (b : Bindings α) (name other : String) (v : α) :
    (b.put name v).contains other = (decide (other = name) || b.contains other) := by
  by_cases h : other = name <;> simp [contains, find?_put, h]

@[simp]
theorem contains_empty (name : String) : (⟨[]⟩ : Bindings α).contains name = false := rfl

@[simp]
theorem contains_single (name other : String) (v : α) :
    (⟨[(name, v)]⟩ : Bindings α).contains other = decide (other = name) := by
  by_cases h : other = name
  · simp [contains, find?, h]
  · simp [contains, find?, List.lookup_cons, h, beq_eq_false_iff_ne.2 h]

end LoxLang.Bindings
