import LoxLang.Proofs.Tree.Uncounted

namespace LoxLang

def nodeAt (program : List Stmt) : List Nat → Option Node
  | [] => none
  | [i] => program[i]?.map .stmt
  | i :: j :: outer => (nodeAt program (j :: outer)).bind (·.parts[i]?)

def placeAt (program : List Stmt) : List Nat → Option (Context × Node)
  | [] => none
  | [i] => (Context.sequence {} program)[i]?
  | i :: j :: outer => (placeAt program (j :: outer)).bind fun x => (x.2.children x.1)[i]?

/-- The nodes around an address, the nearest first, each with which of its parts leads there. -/
def above (program : List Stmt) : List Nat → List (Node × Nat)
  | [] => []
  | i :: outer =>
    match nodeAt program outer with
    | none => []
    | some j => (j, i) :: above program outer

variable {program : List Stmt} {address : List Nat} {Δ : Context} {j : Node}

theorem nodeAt_cons {place : List Nat} (h : nodeAt program place = some j) (i : Nat) :
    nodeAt program (i :: place) = j.parts[i]? := by
  cases place with
  | nil => cases h
  | cons k outer => rw [nodeAt, h, Option.bind_some]

theorem placeAt_cons (h : placeAt program address = some (Δ, j)) (i : Nat) :
    placeAt program (i :: address) = (j.children Δ)[i]? := by
  cases address with
  | nil => cases h
  | cons k outer => rw [placeAt, h, Option.bind_some]

theorem above_cons (h : nodeAt program address = some j) (i : Nat) :
    above program (i :: address) = (j, i) :: above program address := by
  rw [above, h]

theorem placeAt_snd (program : List Stmt) (address : List Nat) :
    (placeAt program address).map Prod.snd = nodeAt program address := by
  induction address with
  | nil => rfl
  | cons i outer ih =>
    cases outer with
    | nil =>
      rw [placeAt, nodeAt, ← List.getElem?_map, Context.sequence_snd, List.getElem?_map]
    | cons k outer =>
      rw [placeAt, nodeAt, ← ih]
      cases placeAt program (k :: outer) with
      | none => rfl
      | some x =>
        rw [Option.bind_some, Option.map_some, Option.bind_some, ← List.getElem?_map, Node.children_snd]

theorem nodeAt_of_placeAt (h : placeAt program address = some (Δ, j)) : nodeAt program address = some j := by
  rw [← placeAt_snd, h, Option.map_some]

theorem exists_placeAt (h : nodeAt program address = some j) : ∃ Δ, placeAt program address = some (Δ, j) := by
  rw [← placeAt_snd] at h
  obtain ⟨⟨Δ, k⟩, hk, rfl⟩ := Option.map_eq_some_iff.1 h
  exact ⟨Δ, hk⟩

/-- What holds at the top of a program and passes to the nodes right below holds at every address. -/
theorem placeAt_induction {P : List Nat → Context → Node → Prop}
    (top : ∀ i Δ j, (Context.sequence {} program)[i]? = some (Δ, j) → P [i] Δ j)
    (child : ∀ outer Δ j i Γ k, placeAt program outer = some (Δ, j) → P outer Δ j →
      (j.children Δ)[i]? = some (Γ, k) → P (i :: outer) Γ k)
    (h : placeAt program address = some (Δ, j)) : P address Δ j := by
  induction address generalizing Δ j with
  | nil => cases h
  | cons i outer ih =>
    cases outer with
    | nil => exact top i Δ j h
    | cons k outer =>
      obtain ⟨⟨Δ', j'⟩, h', hpart⟩ := Option.bind_eq_some_iff.1 h
      exact child _ Δ' j' i Δ j h' (ih h') hpart

theorem occurs_iff_placeAt : Occurs program Δ j ↔ ∃ address, placeAt program address = some (Δ, j) := by
  constructor
  · intro h
    refine Occurs.induction (P := fun Δ j => ∃ address, placeAt program address = some (Δ, j))
      (fun Δ j hmem => ?_) (fun Δ j Γ k _ ih hk => ?_) h
    · obtain ⟨i, hi⟩ := List.getElem?_of_mem hmem
      exact ⟨[i], hi⟩
    · obtain ⟨address, hj⟩ := ih
      obtain ⟨i, hi⟩ := List.getElem?_of_mem hk
      exact ⟨i :: address, (placeAt_cons hj i).trans hi⟩
  · rintro ⟨address, h⟩
    exact placeAt_induction (P := fun _ Δ j => Occurs program Δ j)
      (fun _ _ _ hi => .top (List.mem_of_getElem? hi))
      (fun _ _ _ _ _ _ _ ho hi => ho.child (List.mem_of_getElem? hi)) h

theorem nodeAt_occurs {place : List Nat} (h : nodeAt program place = some j) : ∃ Δ, Occurs program Δ j := by
  obtain ⟨Δ, hΔ⟩ := exists_placeAt h
  exact ⟨Δ, occurs_iff_placeAt.2 ⟨place, hΔ⟩⟩

theorem throughout_iff_placeAt {P : Context → Node → Prop} :
    (∀ x ∈ Context.sequence {} program, Throughout P x) ↔
      ∀ address Δ j, placeAt program address = some (Δ, j) → P Δ j := by
  constructor
  · exact fun h address Δ j hj => (occurs_iff_placeAt.2 ⟨address, hj⟩).of_throughout h
  · intro h x hx y hy
    obtain ⟨address, haddress⟩ := occurs_iff_placeAt.1 (show Occurs program y.1 y.2 from ⟨x, hx, hy⟩)
    exact h address y.1 y.2 haddress

theorem nodeAt_of_mem_above {i : Nat} (h : (j, i) ∈ above program address) :
    ∃ outer, nodeAt program outer = some j := by
  induction address with
  | nil => cases h
  | cons k outer ih =>
    cases hj : nodeAt program outer with
    | none =>
      rw [above, hj] at h
      cases h
    | some j' =>
      rw [above_cons hj] at h
      obtain he | h := List.mem_cons.1 h
      · exact ⟨outer, (Prod.mk.inj he).1 ▸ hj⟩
      · exact ih h

theorem nodeAt_uncounted (program : List Stmt) (address : List Nat) :
    nodeAt (program.map Stmt.uncounted) address = (nodeAt program address).map Node.uncounted := by
  induction address with
  | nil => rfl
  | cons i outer ih =>
    cases outer with
    | nil =>
      rw [nodeAt, nodeAt, List.getElem?_map, Option.map_map, Option.map_map]
      rfl
    | cons k outer =>
      rw [nodeAt, nodeAt, ih]
      cases nodeAt program (k :: outer) with
      | none => rfl
      | some j =>
        rw [Option.map_some, Option.bind_some, Option.bind_some, Node.parts_uncounted, List.getElem?_map]

theorem above_uncounted (program : List Stmt) (address : List Nat) :
    above (program.map Stmt.uncounted) address =
      (above program address).map (Prod.map Node.uncounted id) := by
  induction address with
  | nil => rfl
  | cons i outer ih =>
    rw [above, above, nodeAt_uncounted, ih]
    cases nodeAt program outer <;> rfl

end LoxLang
