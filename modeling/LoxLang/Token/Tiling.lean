import LoxLang.Token.Piece

namespace LoxLang.Piece

theorem closeComment_append (depth : Nat) (rest : List Char) :
    (closeComment depth rest).1 ++ (closeComment depth rest).2.1 = rest := by
  fun_induction closeComment depth rest <;> simp_all

theorem afterSlash_text (rest : List Char) :
    (afterSlash rest).1.text ++ (afterSlash rest).2 = '/' :: rest := by
  unfold afterSlash
  split
  · simp [text]
  · rename_i rest
    have h := closeComment_append 1 rest
    split <;> simp_all [text]
  · simp [text]

theorem afterQuote_text (rest : List Char) :
    (afterQuote rest).1.text ++ (afterQuote rest).2 = '\"' :: rest := by
  have h := List.takeWhile_append_dropWhile (p := (· ≠ '\"')) (l := rest)
  unfold afterQuote
  split <;> rename_i heq <;> rw [heq] at h <;> simpa [text] using h

theorem fraction_append (rest : List Char) : (fraction rest).1 ++ (fraction rest).2 = rest := by
  fun_cases fraction rest <;> simp [List.takeWhile_append_dropWhile]

theorem number_text (lead : Char) (rest : List Char) :
    (number lead rest).1.text ++ (number lead rest).2 = lead :: rest := by
  have h := fraction_append (rest.dropWhile Char.isDigit)
  simp [number, text, List.append_assoc, h, List.takeWhile_append_dropWhile]

theorem word_text (lead : Char) (rest : List Char) :
    (word lead rest).1.text ++ (word lead rest).2 = lead :: rest := by
  simp [word, text, List.takeWhile_append_dropWhile]

theorem symbol_text (kind : Token.Kind) (lead : Char) (rest : List Char) :
    (symbol kind lead rest).1.text ++ (symbol kind lead rest).2 = lead :: rest := by
  unfold symbol
  split
  · split <;> simp [text]
  · simp [text]

theorem next_text (c : Char) (rest : List Char) :
    (next c rest).1.text ++ (next c rest).2 = c :: rest := by
  unfold next
  split
  · subst c
    exact afterSlash_text rest
  split
  · subst c
    exact afterQuote_text rest
  split
  · exact symbol_text _ c rest
  split
  · exact number_text c rest
  split
  · exact word_text c rest
  split <;> rfl

theorem next_text_ne_nil (c : Char) (rest : List Char) : (next c rest).1.text ≠ [] := by
  unfold next
  split
  · unfold afterSlash
    split
    · simp [text]
    · split <;> simp [text]
    · simp [text]
  split
  · unfold afterQuote
    split <;> simp [text]
  split
  · unfold symbol
    split
    · split <;> simp [text]
    · simp [text]
  split
  · simp [number, text]
  split
  · simp [word, text]
  split <;> simp [text]

theorem cutAtMost_text (count : Nat) (source : List Char) (h : source.length ≤ count) :
    (cutAtMost count source).flatMap text = source := by
  induction count generalizing source with
  | zero => simp_all [cutAtMost]
  | succ count ih =>
    cases source with
    | nil => rfl
    | cons c rest =>
      have ht := next_text c rest
      have hp := next_text_ne_nil c rest
      have hl := congrArg List.length ht
      have hn := List.length_pos_iff.2 hp
      simp only [List.length_append, List.length_cons] at hl h
      simp only [cutAtMost, List.flatMap_cons, ih (next c rest).2 (by omega), ht]

/-- The pieces put together again are the source. -/
theorem cut_text (source : List Char) : (cut source).flatMap text = source :=
  cutAtMost_text source.length source (Nat.le_refl _)

end LoxLang.Piece
