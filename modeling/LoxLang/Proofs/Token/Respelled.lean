import LoxLang.Proofs.Token.Tiles

namespace LoxLang

theorem takeWhile_append_of_stops {α : Type} {test : α → Bool} {s t : List α} (hs : ∀ a ∈ s, test a)
    (ht : ∀ b ∈ t.head?, test b = false) : (s ++ t).takeWhile test = s ∧ (s ++ t).dropWhile test = t := by
  rw [List.takeWhile_append_of_pos hs, List.dropWhile_append_of_pos hs]
  cases t with
  | nil => simp
  | cons b t => simp [ht b rfl]

namespace Token

/-- What a token says, wherever it stands. -/
def content (t : Token) : Kind × String × Option Literal := (t.kind, t.lexeme, t.literal)

def Spaced (rest : List Char) : Prop := ∀ c ∈ rest.head?, c = ' '

variable {c : Char} {t rest : List Char} {kind : Kind} {literal : Option Literal}

theorem Spaced.fails (hrest : Spaced rest) {test : Char → Bool} (h : test ' ' = false) :
    ∀ c ∈ rest.head?, test c = false := fun c hc => hrest c hc ▸ h

theorem Spaced.ne_cons (hrest : Spaced rest) (hc : c ≠ ' ') (more : List Char) : rest ≠ c :: more := by
  rintro rfl
  exact hc (hrest c rfl)

theorem Spaced.afterSlash (hrest : Spaced rest) : Piece.afterSlash rest = (.token .slash ['/'], rest) :=
  Piece.afterSlash.eq_3 _ (hrest.ne_cons (by decide)) (hrest.ne_cons (by decide))

theorem Spaced.symbol (hrest : Spaced rest) (kind : Kind) (lead : Char) :
    Piece.symbol kind lead rest = (.token kind [lead], rest) :=
  Piece.symbol.eq_2 _ _ _ (hrest.ne_cons (by decide))

theorem next_symbol {kind : Kind} (h : Piece.symbol? c = some kind) (hc : c ≠ '/') (rest : List Char) :
    Piece.next c rest = Piece.symbol kind c rest := by
  rw [Piece.next, if_neg hc, if_neg (symbol?_other h).1, h]

theorem symbol?_eq_none (h : Piece.isWordChar c) : Piece.symbol? c = none := by
  cases hsymbol : Piece.symbol? c with
  | none => rfl
  | some kind =>
    rw [(symbol?_other hsymbol).2.2.1] at h
    cases h

theorem next_wordChar (h : Piece.isWordChar c) (rest : List Char) :
    Piece.next c rest = if c.isDigit then Piece.number c rest else Piece.word c rest := by
  have hslash : c ≠ '/' := by
    rintro rfl
    exact absurd h (by decide)
  have hquote : c ≠ '\"' := by
    rintro rfl
    exact absurd h (by decide)
  rw [Piece.next, if_neg hslash, if_neg hquote, symbol?_eq_none h]
  simp only [h, if_true]

theorem next_sign (hrest : Spaced rest) (h : (c :: t, kind) ∈ signs) :
    Piece.next c (t ++ rest) = (.token kind (c :: t), rest) := by
  have hlength : ∀ e ∈ signs, e.1.length = 1 ∨ e.1.length = 2 := by decide
  obtain hone | htwo := hlength _ h
  · obtain rfl : t = [] := by simpa using hone
    have hsymbol := mem_signs_single.1 h
    by_cases hslash : c = '/'
    · subst hslash
      cases hsymbol
      exact hrest.afterSlash
    · rw [List.nil_append, next_symbol hsymbol hslash, hrest.symbol]
  · obtain ⟨d, rfl⟩ : ∃ d, t = [d] := List.length_eq_one_iff.1 (by simpa using htwo)
    obtain ⟨rfl, hext⟩ := mem_signs_double.1 h
    obtain ⟨k, hk⟩ := extended?_symbol hext
    have hslash : c ≠ '/' := by
      rintro rfl
      cases hext
    rw [next_symbol hk hslash, List.singleton_append, Piece.symbol, hext]

theorem next_string {inner : List Char} (h : '\"' ∉ inner) (rest : List Char) :
    Piece.next '\"' (inner ++ ['\"'] ++ rest) = (.token .string ('\"' :: inner ++ ['\"']), rest) := by
  have hquote : ∀ d ∈ inner, decide (d ≠ '\"') = true := fun d hd => decide_eq_true fun he => h (he ▸ hd)
  obtain ⟨htake, hdrop⟩ := takeWhile_append_of_stops (t := '\"' :: rest) hquote (by simp)
  change Piece.afterQuote _ = _
  rw [List.append_assoc, List.singleton_append, Piece.afterQuote, htake, hdrop]

theorem Spaced.fraction_append (hrest : Spaced rest) {u : List Char}
    (hu : u = [] ∨ ∃ ds, Digits ds ∧ u = '.' :: ds) : Piece.fraction (u ++ rest) = (u, rest) := by
  obtain rfl | ⟨ds, ⟨hne, hall⟩, rfl⟩ := hu
  · exact Piece.fraction.eq_2 _ fun _ _ => hrest.ne_cons (by decide) _
  · obtain ⟨d, ds, rfl⟩ := List.exists_cons_of_ne_nil hne
    obtain ⟨hd, hds⟩ := List.forall_mem_cons.1 hall
    obtain ⟨htake, hdrop⟩ := takeWhile_append_of_stops hds (hrest.fails (by decide))
    rw [List.cons_append, List.cons_append, Piece.fraction, if_pos hd, htake, hdrop]

theorem next_number (hrest : Spaced rest) {ds u : List Char} (hds : Digits (c :: ds))
    (hu : u = [] ∨ ∃ es, Digits es ∧ u = '.' :: es) :
    Piece.next c (ds ++ u ++ rest) = (.token .number (c :: ds ++ u), rest) := by
  obtain ⟨hc, hall⟩ := List.forall_mem_cons.1 hds.2
  have hstop : ∀ d ∈ (u ++ rest).head?, d.isDigit = false := by
    obtain rfl | ⟨es, -, rfl⟩ := hu
    · exact hrest.fails (by decide)
    · simp
  obtain ⟨htake, hdrop⟩ := takeWhile_append_of_stops hall hstop
  rw [next_wordChar (isWordChar_of_isDigit hc), if_pos hc, List.append_assoc, Piece.number, htake, hdrop,
    hrest.fraction_append hu]

theorem next_word (hrest : Spaced rest) (h : Word (c :: t)) :
    Piece.next c (t ++ rest) = (.token (wordKind (String.ofList (c :: t))) (c :: t), rest) := by
  obtain ⟨hall, d, ds, heq, hdigit⟩ := h
  cases heq
  obtain ⟨hc, ht⟩ := List.forall_mem_cons.1 fun d hd => isWordChar_iff.2 (hall d hd)
  obtain ⟨htake, hdrop⟩ := takeWhile_append_of_stops ht (hrest.fails (by decide))
  rw [next_wordChar hc, if_neg (by simp [hdigit]), Piece.word, htake, hdrop]

theorem literal?_plain (h : kind ≠ .number ∧ kind ≠ .string) (t : List Char) : Piece.literal? kind t = none := by
  unfold Piece.literal?
  split
  · exact absurd rfl h.1
  · exact absurd rfl h.2
  · rfl

/-- In front of a blank a token is all that its text starts with. -/
theorem Lexeme.next (h : Lexeme kind (c :: t) literal) (hrest : Spaced rest) :
    Piece.next c (t ++ rest) = (.token kind (c :: t), rest) ∧ Piece.literal? kind (c :: t) = literal := by
  generalize hs : c :: t = s at h
  cases h with
  | sign hmem =>
    subst hs
    have hplain : ∀ entry ∈ signs, entry.2 ≠ .number ∧ entry.2 ≠ .string := by decide
    exact ⟨next_sign hrest hmem, literal?_plain (hplain _ hmem) _⟩
  | string hinner =>
    cases hs
    refine ⟨next_string hinner rest, ?_⟩
    rw [Piece.literal?, List.drop_one, List.cons_append, List.tail_cons, List.dropLast_concat]
  | whole hdigits =>
    subst hs
    exact ⟨by simpa using next_number hrest hdigits (.inl rfl), rfl⟩
  | @decimal a b ha hb =>
    cases a with
    | nil => exact absurd rfl ha.1
    | cons d a =>
      cases hs
      exact ⟨next_number hrest ha (.inr ⟨b, hb, rfl⟩), rfl⟩
  | keyword hword hmem =>
    subst hs
    have hplain : ∀ entry ∈ keywords, entry.2 ≠ .number ∧ entry.2 ≠ .string := by decide
    exact ⟨wordKind_keyword hmem ▸ next_word hrest hword, literal?_plain (hplain _ hmem) _⟩
  | identifier hword hnone =>
    subst hs
    exact ⟨wordKind_identifier hnone ▸ next_word hrest hword, rfl⟩

end Token

namespace Piece

open Token

theorem cut_lexeme {kind : Kind} {t rest : List Char} {literal : Option Literal} (h : Lexeme kind t literal)
    (hrest : Spaced rest) : cut (t ++ rest) = .token kind t :: cut rest ∧ literal? kind t = literal := by
  obtain ⟨c, t, rfl⟩ := List.exists_cons_of_ne_nil h.ne_nil
  obtain ⟨hnext, hliteral⟩ := h.next hrest
  exact ⟨by rw [List.cons_append, cut_cons, hnext], hliteral⟩

theorem cut_blank (rest : List Char) : cut (' ' :: rest) = .blank ' ' :: cut rest := cut_cons ' ' rest

theorem tokensFrom_token {t : Token} (h : literal? t.kind t.lexeme.toList = t.literal) (line : Int)
    (ps : List Piece) : (tokensFrom line (.token t.kind t.lexeme.toList :: ps)).map content =
      content t :: (tokensFrom (endLine line (.token t.kind t.lexeme.toList)) ps).map content := by
  rw [tokensFrom, List.map_cons, content, content, h, String.ofList_toList]

theorem cut_spelled {ts : List Token} (h : ∀ t ∈ ts, Lexeme t.kind t.lexeme.toList t.literal) :
    (∀ p ∈ cut ([' '].intercalate (ts.map fun t => t.lexeme.toList)), p.Clean) ∧
    ∀ line, (tokensFrom line (cut ([' '].intercalate (ts.map fun t => t.lexeme.toList)))).map content =
      ts.map content ++ [(.eof, "", none)] := by
  have hclean : ∀ t : Token, (token t.kind t.lexeme.toList).Clean := fun t => ⟨rfl, fun c => Piece.noConfusion⟩
  induction ts with
  | nil => exact ⟨List.forall_mem_nil _, fun _ => rfl⟩
  | cons t ts ih =>
    obtain ⟨ht, hts⟩ := List.forall_mem_cons.1 h
    cases ts with
    | nil =>
      obtain ⟨hcut, hliteral⟩ := cut_lexeme ht (show Spaced [] by simp [Spaced])
      rw [List.append_nil] at hcut
      rw [List.map_singleton, List.intercalate_singleton, hcut]
      exact ⟨List.forall_mem_singleton.2 (hclean t), fun line => tokensFrom_token hliteral line []⟩
    | cons u ts =>
      obtain ⟨hcleans, htokens⟩ := ih hts
      rw [List.map_cons] at hcleans htokens
      rw [List.map_cons, List.map_cons, List.intercalate_cons_cons, List.append_assoc, List.singleton_append]
      obtain ⟨hcut, hliteral⟩ := cut_lexeme ht
        (show Spaced (' ' :: [' '].intercalate (u.lexeme.toList :: ts.map fun t => t.lexeme.toList)) by simp [Spaced])
      rw [hcut, cut_blank]
      refine ⟨List.forall_mem_cons.2 ⟨hclean t, List.forall_mem_cons.2
        ⟨⟨rfl, fun c => Piece.noConfusion⟩, hcleans⟩⟩, fun line => ?_⟩
      rw [tokensFrom_token hliteral, List.map_cons, List.cons_append, ← htokens]
      rfl

end Piece

/-- The texts of tokens, with a blank between each two. -/
def Token.spelled (ts : List Token) : String :=
  " ".intercalate ((ts.filter (·.kind ≠ .eof)).map lexeme)

/-- The texts of a program's tokens scan to the same tokens, and nothing is wrong in between. -/
theorem Token.lexemes_scan_back (source : String) :
    (scan (spelled (scan source).1)).2 = [] ∧
    (scan (spelled (scan source).1)).1.map content = (scan source).1.map content := by
  obtain ⟨body, hbody, htiled⟩ := Piece.cut_tiled [] source.toList
  have hscan : (scan source).1 = body ++ [⟨.eof, "", lineAfter source.toList, none⟩] := hbody
  obtain ⟨hclean, htokens⟩ := Piece.cut_spelled fun t ht => htiled.lexed t ht (htiled.ne_eof t ht)
  have hspelled : (spelled (scan source).1).toList = [' '].intercalate (body.map fun t => t.lexeme.toList) := by
    simp only [spelled, filter_scan hscan, String.toList_intercalate, List.map_map]
    rfl
  rw [scan, hspelled]
  refine ⟨(Piece.reports_eq_nil _).2 hclean, ?_⟩
  rw [hscan, List.map_append]
  exact htokens 1

end LoxLang
