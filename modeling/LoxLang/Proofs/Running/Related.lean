import Mathlib.Data.List.Forall2
import LoxLang.Bindings

namespace LoxLang

theorem exists_of_mem_right {α β : Type} {R : α → β → Prop} {as : List α} {bs : List β} (h : List.Forall₂ R as bs)
    {b : β} (hb : b ∈ bs) : ∃ a ∈ as, R a b := by
  induction h with
  | nil => cases hb
  | @cons a b' as bs hab _ ih =>
    obtain rfl | hb := List.mem_cons.1 hb
    · exact ⟨a, by simp, hab⟩
    · obtain ⟨c, hc, hcb⟩ := ih hb
      exact ⟨c, by simp [hc], hcb⟩

namespace Bindings

variable {α β : Type} {ρ : String → String} {H : String → Prop} {R : α → β → Prop}

/-- Bindings in one order, of names that may be held, renamed, with their values related. -/
def Rel (ρ : String → String) (H : String → Prop) (R : α → β → Prop) (b : Bindings α)
    (b' : Bindings β) : Prop :=
  List.Forall₂ (fun e e' => e'.1 = ρ e.1 ∧ H e.1 ∧ R e.2 e'.2) b.entries b'.entries

theorem Rel.empty : Rel ρ H R ⟨[]⟩ ⟨[]⟩ := .nil

theorem Rel.single {name name' : String} {a : α} {a' : β} (hname : name' = ρ name) (hH : H name)
    (ha : R a a') : Rel ρ H R ⟨[(name, a)]⟩ ⟨[(name', a')]⟩ :=
  List.Forall₂.cons ⟨hname, hH, ha⟩ .nil

theorem Rel.mono {S : α → β → Prop} {b : Bindings α} {b' : Bindings β} (h : Rel ρ H R b b')
    (hRS : ∀ a a', R a a' → S a a') : Rel ρ H S b b' :=
  List.Forall₂.imp (fun _ _ he => ⟨he.1, he.2.1, hRS _ _ he.2.2⟩) h

theorem Rel.find? {b : Bindings α} {b' : Bindings β} (h : Rel ρ H R b b')
    (hρ : Function.Injective ρ) (name : String) : Option.Rel R (b.find? name) (b'.find? (ρ name)) := by
  obtain ⟨es⟩ := b
  obtain ⟨es'⟩ := b'
  simp only [Rel, Bindings.find?] at h ⊢
  induction h with
  | nil => exact .none
  | @cons e e' es es' he _ ih =>
    obtain ⟨n, a⟩ := e
    obtain ⟨n', a'⟩ := e'
    obtain ⟨rfl, -, ha⟩ := he
    by_cases hn : name = n
    · subst hn
      simpa [List.lookup_cons] using Option.Rel.some ha
    · have hρn : ρ name ≠ ρ n := fun h => hn (hρ h)
      simpa [List.lookup_cons, beq_eq_false_iff_ne.2 hn, beq_eq_false_iff_ne.2 hρn] using ih

theorem Rel.contains_eq {b : Bindings α} {b' : Bindings β} (h : Rel ρ H R b b')
    (hρ : Function.Injective ρ) (name : String) : b'.contains (ρ name) = b.contains name := by
  have hfind := h.find? hρ name
  unfold Bindings.contains
  generalize b.find? name = x at hfind ⊢
  generalize b'.find? (ρ name) = x' at hfind ⊢
  cases hfind <;> rfl

theorem Rel.put {b : Bindings α} {b' : Bindings β} (h : Rel ρ H R b b') (hρ : Function.Injective ρ)
    {name : String} {a : α} {a' : β} (hH : H name) (ha : R a a') :
    Rel ρ H R (b.put name a) (b'.put (ρ name) a') := by
  obtain ⟨es⟩ := b
  obtain ⟨es'⟩ := b'
  simp only [Rel, Bindings.put] at h ⊢
  induction h with
  | nil => exact .cons ⟨rfl, hH, ha⟩ .nil
  | @cons e e' es es' he hes ih =>
    obtain ⟨n, v⟩ := e
    obtain ⟨n', v'⟩ := e'
    obtain ⟨rfl, hn, hv⟩ := he
    by_cases hname : name = n
    · subst hname
      simpa [putEntry] using ⟨⟨hH, ha⟩, hes⟩
    · have hρn : ρ name ≠ ρ n := fun h => hname (hρ h)
      simpa [putEntry, hname, hρn] using List.Forall₂.cons ⟨rfl, hn, hv⟩ ih

theorem Rel.holds {b : Bindings α} {b' : Bindings β} (h : Rel ρ H R b b') {name : String}
    (hb : b.contains name = true) : H name := by
  obtain ⟨es⟩ := b
  obtain ⟨es'⟩ := b'
  simp only [Rel, Bindings.contains, Bindings.find?] at h hb
  induction h with
  | nil => simp at hb
  | @cons e e' es es' he _ ih =>
    obtain ⟨n, v⟩ := e
    by_cases hname : name = n
    · exact hname ▸ he.2.1
    · exact ih (by simpa [List.lookup_cons, beq_eq_false_iff_ne.2 hname] using hb)

theorem Rel.eq {R : α → α → Prop} {b b' : Bindings α} (h : Rel ρ H R b b') (hρ : ∀ n, ρ n = n)
    (hR : ∀ a a', R a a' → a' = a) : b' = b := by
  obtain ⟨es⟩ := b
  obtain ⟨es'⟩ := b'
  simp only [Rel, Bindings.mk.injEq] at h ⊢
  induction h with
  | nil => rfl
  | @cons e e' es es' he _ ih =>
    rw [ih, Prod.ext (he.1.trans (hρ _)) (hR _ _ he.2.2)]

theorem insertSorted_related {α β : Type} {R : String × α → String × β → Prop} (hR : ∀ e e', R e e' → e'.1 = e.1)
    {e : String × α} {e' : String × β} {es : List (String × α)} {es' : List (String × β)} (he : R e e')
    (hes : List.Forall₂ R es es') : List.Forall₂ R (insertSorted e es) (insertSorted e' es') := by
  induction hes with
  | nil => exact .cons he .nil
  | @cons f f' fs fs' hf hfs ih =>
    rw [insertSorted, insertSorted, hR e e' he, hR f f' hf]
    by_cases hle : e.1 ≤ f.1
    · rw [if_pos hle, if_pos hle]
      exact .cons he (.cons hf hfs)
    · rw [if_neg hle, if_neg hle]
      exact .cons hf ih

theorem sorted_related {α β : Type} {R : String × α → String × β → Prop} (hR : ∀ e e', R e e' → e'.1 = e.1)
    {b : Bindings α} {b' : Bindings β} (h : List.Forall₂ R b.entries b'.entries) :
    List.Forall₂ R b.sorted b'.sorted := by
  unfold sorted
  generalize b.entries = es at h
  generalize b'.entries = es' at h
  induction h with
  | nil => exact .nil
  | cons he _ ih => exact insertSorted_related hR he ih

end Bindings

def Slots {α β : Type} (R : α → β → Prop) (a : Array α) (b : Array β) : Prop :=
  ∀ i : Nat, Option.Rel R a[i]? b[i]?

namespace Slots

variable {α β : Type} {R : α → β → Prop} {a : Array α} {b : Array β}

theorem empty : Slots R #[] #[] := fun _ => by simp

theorem size_eq (h : Slots R a b) : b.size = a.size := by
  have ha := h a.size
  have hb := h b.size
  rw [Array.getElem?_eq_none (Nat.le_refl a.size)] at ha
  rw [Array.getElem?_eq_none (Nat.le_refl b.size)] at hb
  have hle : b.size ≤ a.size := by
    generalize hx : b[a.size]? = x at ha
    cases ha
    exact Array.getElem?_eq_none_iff.1 hx
  have hge : a.size ≤ b.size := by
    generalize hx : a[b.size]? = x at hb
    cases hb
    exact Array.getElem?_eq_none_iff.1 hx
  exact Nat.le_antisymm hle hge

theorem push (h : Slots R a b) {x : α} {y : β} (hxy : R x y) : Slots R (a.push x) (b.push y) := by
  intro i
  rw [Array.getElem?_push, Array.getElem?_push, h.size_eq]
  by_cases hi : i = a.size
  · simpa [hi] using Option.Rel.some hxy
  · simpa [hi] using h i

theorem modify (h : Slots R a b) {f : α → α} {g : β → β} (hfg : ∀ x y, R x y → R (f x) (g y)) (i : Nat) :
    Slots R (a.modify i f) (b.modify i g) := by
  intro j
  rw [Array.getElem?_modify, Array.getElem?_modify]
  by_cases hj : i = j
  · have hr := h j
    generalize a[j]? = x at hr ⊢
    generalize b[j]? = y at hr ⊢
    cases hr with
    | none => simp [hj]
    | some hxy => simpa [hj] using Option.Rel.some (hfg _ _ hxy)
  · simpa [hj] using h j

theorem set (h : Slots R a b) {x : α} {y : β} (hxy : R x y) (i : Nat) :
    Slots R (a.setIfInBounds i x) (b.setIfInBounds i y) := by
  intro j
  rw [Array.getElem?_setIfInBounds, Array.getElem?_setIfInBounds, h.size_eq]
  by_cases hj : i = j
  · by_cases hi : i < a.size
    · simpa [← hj, hi] using Option.Rel.some hxy
    · simp [← hj, hi]
  · simpa [hj] using h j

theorem getD (h : Slots R a b) {x : α} {y : β} (hxy : R x y) (i : Nat) :
    R (a[i]?.getD x) (b[i]?.getD y) := by
  have hr := h i
  generalize a[i]? = u at hr ⊢
  generalize b[i]? = v at hr ⊢
  cases hr with
  | none => exact hxy
  | some huv => exact huv

theorem mono {S : α → β → Prop} (h : Slots R a b) (hRS : ∀ x y, R x y → S x y) : Slots S a b := by
  intro i
  have hr := h i
  generalize a[i]? = u at hr ⊢
  generalize b[i]? = v at hr ⊢
  cases hr with
  | none => exact .none
  | some huv => exact .some (hRS _ _ huv)

theorem of_forall₂ {as : List α} {bs : List β} (h : List.Forall₂ R as bs) :
    Slots R as.toArray bs.toArray := by
  intro i
  simp only [List.getElem?_toArray]
  induction h generalizing i with
  | nil => exact .none
  | cons hxy _ ih =>
    cases i with
    | zero => exact .some hxy
    | succ i => exact ih i

theorem forall₂ (h : Slots R a b) : List.Forall₂ R a.toList b.toList := by
  apply List.forall₂_iff_get.2
  refine ⟨by simpa using h.size_eq.symm, fun i ha hb => ?_⟩
  have hr := h i
  rw [Array.getElem?_eq_getElem (by simpa using ha), Array.getElem?_eq_getElem (by simpa using hb)] at hr
  cases hr with
  | some hxy => simpa using hxy

theorem eq {R : α → α → Prop} {a b : Array α} (h : Slots R a b) (hR : ∀ x y, R x y → y = x) : b = a := by
  apply Array.ext_getElem?
  intro i
  have hr := h i
  generalize a[i]? = u at hr ⊢
  generalize b[i]? = v at hr ⊢
  cases hr with
  | none => rfl
  | some huv => rw [hR _ _ huv]

theorem map_iff {g : α → β} : Slots (fun x y => y = g x) a b ↔ b = a.map g := by
  constructor
  · intro h
    apply Array.ext_getElem?
    intro i
    have hr := h i
    rw [Array.getElem?_map]
    generalize a[i]? = u at hr ⊢
    generalize b[i]? = v at hr ⊢
    cases hr with
    | none => rfl
    | some huv => rw [huv, Option.map_some]
  · rintro rfl i
    rw [Array.getElem?_map]
    cases a[i]? with
    | none => exact .none
    | some x => exact .some rfl

theorem map_map_iff {g : α → β} {as : Array (Array α)} {bs : Array (Array β)} :
    Slots (Slots fun x y => y = g x) as bs ↔ bs = as.map (Array.map g) := by
  have hrow : (Slots fun x y => y = g x) = fun xs ys => ys = xs.map g := funext₂ fun _ _ => propext map_iff
  rw [hrow, map_iff]

end Slots

section every

variable {α : Type}

theorem getD_push (Q : α → Prop) {as : Array α} {a d : α} (h : ∀ i : Nat, Q (as[i]?.getD d)) (ha : Q a) (i : Nat) :
    Q ((as.push a)[i]?.getD d) := by
  rw [Array.getElem?_push]
  split
  · exact ha
  · exact h i

theorem getD_modify (Q : α → Prop) {as : Array α} {d : α} {f : α → α} (h : ∀ i : Nat, Q (as[i]?.getD d))
    (hf : ∀ a, Q a → Q (f a)) (j i : Nat) : Q ((as.modify j f)[i]?.getD d) := by
  have hi := h i
  rw [Array.getElem?_modify]
  split
  · generalize as[i]? = a at hi ⊢
    cases a with
    | none => exact hi
    | some a => exact hf a hi
  · exact hi

variable {V : α → Prop}

def Bindings.All (V : α → Prop) (b : Bindings α) : Prop := ∀ name v, b.find? name = some v → V v

namespace Bindings.All

theorem empty : All V ⟨[]⟩ := nofun

theorem put {b : Bindings α} (h : b.All V) (name : String) {v : α} (hv : V v) : (b.put name v).All V := by
  intro other u hu
  rw [find?_put] at hu
  split at hu
  · exact Option.some.inj hu ▸ hv
  · exact h other u hu

theorem getD {b : Bindings α} (h : b.All V) {d : α} (hd : V d) (name : String) : V ((b.find? name).getD d) := by
  cases hv : b.find? name with
  | none => exact hd
  | some v => exact h name v hv

end Bindings.All

variable {bs : Array (Bindings α)}

theorem Bindings.all_push (h : ∀ i : Nat, (bs[i]?.getD ⟨[]⟩).All V) {b : Bindings α} (hb : b.All V) (i : Nat) :
    ((bs.push b)[i]?.getD ⟨[]⟩).All V := getD_push _ h hb i

theorem Bindings.all_modify_put (h : ∀ i : Nat, (bs[i]?.getD ⟨[]⟩).All V) (name : String) {v : α} (hv : V v) (j i : Nat) :
    ((bs.modify j (·.put name v))[i]?.getD ⟨[]⟩).All V := getD_modify _ h (fun _ hb => hb.put name hv) j i

theorem forall_mem_push {lists : Array (Array α)} (h : ∀ i : Nat, ∀ v ∈ lists[i]?.getD #[], V v) {xs : List α}
    (hxs : ∀ v ∈ xs, V v) (i : Nat) : ∀ v ∈ (lists.push xs.toArray)[i]?.getD #[], V v :=
  getD_push (fun ys => ∀ v ∈ ys, V v) h (by simpa using hxs) i

end every

end LoxLang
