import LoxLang.Proofs.Token.Lexemes

namespace LoxLang.Piece

def charsOn (strays : List (Int × Char)) (n : Int) : List Char := (strays.filter (·.1 = n)).map (·.2)

theorem charsOn_cons (line n : Int) (c : Char) (rest : List (Int × Char)) :
    charsOn ((line, c) :: rest) n = if line = n then c :: charsOn rest n else charsOn rest n := by
  unfold charsOn
  by_cases h : line = n <;> simp [h]

theorem charsOn_ne_nil {strays : List (Int × Char)} {n : Int} : charsOn strays n ≠ [] ↔ ∃ c, (n, c) ∈ strays := by
  simp [charsOn, List.filter_eq_nil_iff]

theorem gather_cons (line : Int) (c : Char) (rest : List (Int × Char)) : gather ((line, c) :: rest) =
    match gather rest with
    | (other, cs) :: more => if line = other then (line, c :: cs) :: more else (line, [c]) :: (other, cs) :: more
    | [] => [(line, [c])] := rfl

/-- The lines of some characters, in their order, each gathered with all that it has. -/
structure Gathered (strays : List (Int × Char)) (lines : List Int) : Prop where
  sorted : lines.Pairwise (· < ·)
  mem : ∀ n, n ∈ lines ↔ charsOn strays n ≠ []
  eq : gather strays = lines.map fun n => (n, charsOn strays n)

namespace Gathered

variable {rest : List (Int × Char)} {line : Int} {lines : List Int}

theorem further (hlines : ∀ n ∈ lines, line < n) (c : Char) (rest : List (Int × Char)) :
    lines.map (fun n => (n, charsOn ((line, c) :: rest) n)) = lines.map fun n => (n, charsOn rest n) :=
  List.map_congr_left fun n hn => by rw [charsOn_cons, if_neg (Int.ne_of_lt (hlines n hn))]

theorem mem_cons (h : Gathered rest lines) (c : Char) (n : Int) :
    charsOn ((line, c) :: rest) n ≠ [] ↔ line = n ∨ n ∈ lines := by
  rw [h.mem, charsOn_cons]
  by_cases hn : line = n <;> simp [hn]

theorem again (h : Gathered rest (line :: lines)) (c : Char) : Gathered ((line, c) :: rest) (line :: lines) where
  sorted := h.sorted
  mem n := by
    rw [h.mem_cons, List.mem_cons, eq_comm]
    simp
  eq := by
    rw [gather_cons, h.eq, List.map_cons, List.map_cons, further (List.pairwise_cons.1 h.sorted).1, charsOn_cons]
    simp

theorem before (h : Gathered rest lines) (hlines : ∀ n ∈ lines, line < n) (c : Char) :
    Gathered ((line, c) :: rest) (line :: lines) where
  sorted := .cons hlines h.sorted
  mem n := by
    rw [h.mem_cons, List.mem_cons, eq_comm]
  eq := by
    have hnone : charsOn rest line = [] := by
      have hnot : line ∉ lines := fun hline => absurd (hlines line hline) (Int.lt_irrefl line)
      simpa [hnot] using h.mem line
    rw [gather_cons, h.eq, List.map_cons, further hlines, charsOn_cons, if_pos rfl, hnone]
    cases lines with
    | nil => rfl
    | cons other more =>
      rw [List.map_cons]
      dsimp only
      rw [if_neg (Int.ne_of_lt (hlines other List.mem_cons_self))]

end Gathered

/-- Each line that has any is told once, with all that it has. -/
theorem gather_eq {strays : List (Int × Char)} (h : strays.Pairwise (·.1 ≤ ·.1)) :
    ∃ lines, Gathered strays lines := by
  induction strays with
  | nil => exact ⟨[], .nil, by simp [charsOn], rfl⟩
  | cons x rest ih =>
    obtain ⟨line, c⟩ := x
    obtain ⟨hle, hrest⟩ := List.pairwise_cons.1 h
    obtain ⟨lines, hgathered⟩ := ih hrest
    have hlater : ∀ n ∈ lines, line ≤ n := fun n hn => by
      obtain ⟨d, hd⟩ := charsOn_ne_nil.1 ((hgathered.mem n).1 hn)
      exact hle _ hd
    cases lines with
    | nil => exact ⟨_, hgathered.before (List.forall_mem_nil _) c⟩
    | cons first more =>
      obtain hlt | rfl := Int.lt_or_eq_of_le (hlater first List.mem_cons_self)
      · refine ⟨_, hgathered.before (List.forall_mem_cons.2 ⟨hlt, fun n hn => ?_⟩) c⟩
        exact Int.lt_trans hlt ((List.pairwise_cons.1 hgathered.sorted).1 n hn)
      · exact ⟨_, hgathered.again c⟩

theorem gather_head {strays : List (Int × Char)} {n : Int} {cs : List Char} {more : List (Int × List Char)}
    (h : gather strays = (n, cs) :: more) : ∃ c, (n, c) ∈ strays := by
  cases strays with
  | nil => cases h
  | cons x rest =>
    obtain ⟨line, c⟩ := x
    refine ⟨c, ?_⟩
    rw [gather_cons] at h
    split at h
    · split at h <;> cases h <;> exact List.mem_cons_self ..
    · cases h
      exact List.mem_cons_self ..

theorem gather_append {strays others : List (Int × Char)} (h : ∀ x ∈ strays, ∀ y ∈ others, x.1 < y.1) :
    gather (strays ++ others) = gather strays ++ gather others := by
  induction strays with
  | nil => rfl
  | cons x rest ih =>
    obtain ⟨line, c⟩ := x
    obtain ⟨hhere, hrest⟩ := List.forall_mem_cons.1 h
    rw [List.cons_append, gather_cons, gather_cons, ih hrest]
    cases gather rest with
    | nil =>
      cases hothers : gather others with
      | nil => rfl
      | cons first more =>
        obtain ⟨other, cs⟩ := first
        obtain ⟨d, hd⟩ := gather_head hothers
        have hne : line ≠ other := Int.ne_of_lt (hhere _ hd)
        simp [hne]
    | cons first more =>
      obtain ⟨other, cs⟩ := first
      dsimp only [List.cons_append]
      split <;> rfl

theorem gather_add (k : Int) (strays : List (Int × Char)) :
    gather (strays.map fun x => (x.1 + k, x.2)) = (gather strays).map fun x => (x.1 + k, x.2) := by
  induction strays with
  | nil => rfl
  | cons x rest ih =>
    obtain ⟨line, c⟩ := x
    rw [List.map_cons, gather_cons, gather_cons, ih]
    cases gather rest with
    | nil => rfl
    | cons first more =>
      obtain ⟨other, cs⟩ := first
      by_cases hsame : line = other
      · simp [hsame]
      · simp [hsame]

theorem endLine_stray {c : Char} (h : Token.Stray c) (line : Int) : endLine line (stray c) = line := by
  have hc : c ≠ '\n' := by
    rintro rfl
    exact h.1 (by decide)
  simp [endLine, text, newlines, hc]

theorem cut_stray (source : List Char) : ∀ p ∈ cut source, ∀ c, p = stray c → Token.Stray c := by
  induction hn : source.length using Nat.strongRecOn generalizing source with
  | ind n ih =>
    cases source with
    | nil => exact List.forall_mem_nil _
    | cons c rest =>
      have hnext := next_length c rest
      rw [List.length_cons] at hn
      rw [cut_cons, List.forall_mem_cons]
      refine ⟨fun d hd => ?_, ih (next c rest).2.length (by omega) _ rfl⟩
      have hfits := next_fits c rest
      rw [hd] at hfits
      exact hfits

variable {ps : List Piece}

theorem straysFrom_append (h : ∀ p ∈ ps, ∀ c, p = stray c → Token.Stray c) (line : Int) (qs : List Piece) :
    straysFrom line (ps ++ qs) = straysFrom line ps ++ straysFrom (ps.foldl endLine line) qs := by
  induction ps generalizing line with
  | nil => rfl
  | cons p ps ih =>
    obtain ⟨hp, hps⟩ := List.forall_mem_cons.1 h
    cases p with
    | stray c =>
      rw [List.cons_append, straysFrom, straysFrom, List.foldl_cons, endLine_stray (hp c rfl), ih hps, List.cons_append]
    | _ => exact ih hps _

theorem straysFrom_add (line k : Int) (ps : List Piece) :
    straysFrom (line + k) ps = (straysFrom line ps).map fun x => (x.1 + k, x.2) := by
  have hend : ∀ (line : Int) p, endLine (line + k) p = endLine line p + k := fun line p => by
    simp only [endLine]
    omega
  induction ps generalizing line with
  | nil => rfl
  | cons p ps ih =>
    cases p with
    | stray c => rw [straysFrom, straysFrom, ih, List.map_cons]
    | _ => simp only [straysFrom, hend, ih]

theorem le_endLine (line : Int) (p : Piece) : line ≤ endLine line p := by
  unfold endLine
  omega

theorem le_of_mem_straysFrom {line : Int} : ∀ x ∈ straysFrom line ps, line ≤ x.1 := by
  induction ps generalizing line with
  | nil => exact List.forall_mem_nil _
  | cons p ps ih =>
    cases p with
    | stray c => exact List.forall_mem_cons.2 ⟨Int.le_refl _, ih⟩
    | _ => exact fun x hx => Int.le_trans (le_endLine line _) (ih x hx)

theorem straysFrom_le {line : Int} : ∀ x ∈ straysFrom line ps, x.1 ≤ ps.foldl endLine line := by
  have hmono : ∀ (ps : List Piece) {line line' : Int}, line ≤ line' →
      ps.foldl endLine line ≤ ps.foldl endLine line' := by
    intro ps line line' hle
    rw [foldl_endLine, foldl_endLine]
    omega
  have hfirst : ∀ (ps : List Piece) (line : Int), line ≤ ps.foldl endLine line := fun ps line => by
    rw [foldl_endLine]
    omega
  induction ps generalizing line with
  | nil => exact List.forall_mem_nil _
  | cons p ps ih =>
    cases p with
    | stray c =>
      have hend := hmono ps (le_endLine line (stray c))
      exact List.forall_mem_cons.2 ⟨Int.le_trans (hfirst ps line) hend, fun x hx => Int.le_trans (ih x hx) hend⟩
    | _ => exact ih

theorem straysFrom_sorted (line : Int) (ps : List Piece) : (straysFrom line ps).Pairwise (·.1 ≤ ·.1) := by
  induction ps generalizing line with
  | nil => exact .nil
  | cons p ps ih =>
    cases p with
    | stray c => exact .cons le_of_mem_straysFrom (ih line)
    | _ => exact ih _

end LoxLang.Piece
