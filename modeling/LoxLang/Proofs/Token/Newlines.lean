import LoxLang.Proofs.Lines.Tree
import LoxLang.Proofs.Token.Words
import LoxLang.Token.Tiling

namespace LoxLang

section lists

variable {α : Type} {test : α → Bool} {a : α}

theorem takeWhile_append_stop (h : test a = false) (as bs : List α) :
    (as ++ a :: bs).takeWhile test = as.takeWhile test := by
  rw [List.takeWhile_append]
  split
  · rename_i hall
    rw [List.takeWhile_cons_of_neg (by simp [h]), List.append_nil]
    exact ((List.takeWhile_prefix test).eq_of_length hall).symm
  · rfl

theorem dropWhile_append_stop (h : test a = false) (as bs : List α) :
    (as ++ a :: bs).dropWhile test = as.dropWhile test ++ a :: bs := by
  rw [List.dropWhile_append]
  split
  · rename_i hnone
    rw [List.isEmpty_iff.1 hnone, List.dropWhile_cons_of_neg (by simp [h]), List.nil_append]
  · rfl

theorem takeWhile_append_of_fails {as : List α} (h : as.dropWhile test ≠ []) (bs : List α) :
    (as ++ bs).takeWhile test = as.takeWhile test := by
  induction as with
  | nil => exact absurd rfl h
  | cons b as ih =>
    cases hb : test b with
    | true =>
      rw [List.dropWhile_cons_of_pos hb] at h
      rw [List.cons_append, List.takeWhile_cons_of_pos hb, List.takeWhile_cons_of_pos hb, ih h]
    | false => simp [hb]

theorem dropWhile_append_of_fails {as : List α} (h : as.dropWhile test ≠ []) (bs : List α) :
    (as ++ bs).dropWhile test = as.dropWhile test ++ bs := by
  rw [List.dropWhile_append, if_neg (by simpa using h)]

end lists

namespace Piece

def Clean (p : Piece) : Prop := openComplaints p = [] ∧ ∀ c, p ≠ .stray c

theorem gather_eq_nil {strays : List (Int × Char)} : gather strays = [] ↔ strays = [] := by
  cases strays with
  | nil => simp [gather]
  | cons x xs =>
    obtain ⟨line, c⟩ := x
    rw [gather]
    split
    · split <;> simp
    · simp

theorem straysFrom_eq_nil (line : Int) (ps : List Piece) :
    straysFrom line ps = [] ↔ ∀ p ∈ ps, ∀ c, p ≠ .stray c := by
  induction ps generalizing line with
  | nil => simp [straysFrom]
  | cons p ps ih =>
    rw [List.forall_mem_cons]
    cases p with
    | stray c => simp [straysFrom]
    | _ => simp [straysFrom, ih]

theorem reports_eq_nil (ps : List Piece) : reports ps = [] ↔ ∀ p ∈ ps, p.Clean := by
  simp only [reports, List.append_eq_nil_iff, List.map_eq_nil_iff, List.flatMap_eq_nil_iff, gather_eq_nil,
    straysFrom_eq_nil, Clean]
  exact ⟨fun h p hp => ⟨h.1 p hp, h.2 p hp⟩, fun h => ⟨fun p hp => (h p hp).1, fun p hp => (h p hp).2⟩⟩

theorem closeComment_append_right {depth : Nat} {rest : List Char} (h : (closeComment depth rest).2.2 = 0)
    (more : List Char) : closeComment depth (rest ++ more) =
      ((closeComment depth rest).1, (closeComment depth rest).2.1 ++ more, 0) := by
  fun_induction closeComment depth rest with
  | case1 rest => cases rest ++ more <;> rfl
  | case2 depth hdepth => exact absurd h hdepth
  | case3 depth rest t after left heq ih =>
    rw [heq] at ih
    simp only [List.cons_append, closeComment, ih h]
  | case4 depth rest t after left heq ih =>
    rw [heq] at ih
    simp only [List.cons_append, closeComment, ih h]
  | case5 depth c rest hclose hopen t after left heq ih =>
    rw [heq] at ih
    cases rest with
    | nil =>
      cases heq
      cases h
    | cons d rest =>
      -- The character after the first is the same, with or without more to follow.
      have hclose' : ∀ r, c = '*' → d :: rest ++ more = '/' :: r → False := by
        rintro r rfl hr
        exact hclose rest rfl (by rw [(List.cons.inj hr).1])
      have hopen' : ∀ r, c = '/' → d :: rest ++ more = '*' :: r → False := by
        rintro r rfl hr
        exact hopen rest rfl (by rw [(List.cons.inj hr).1])
      rw [List.cons_append, closeComment.eq_5 _ _ _ hclose' hopen', ih h]

variable (more : List Char)

theorem afterSlash_newline {rest : List Char} (h : openComplaints (afterSlash rest).1 = []) :
    afterSlash (rest ++ '\n' :: more) = ((afterSlash rest).1, (afterSlash rest).2 ++ '\n' :: more) := by
  fun_cases afterSlash rest with
  | case1 rest =>
    have htake := @takeWhile_append_stop _ (fun c : Char => decide (c ≠ '\n')) '\n' (by decide) rest more
    have hdrop := @dropWhile_append_stop _ (fun c : Char => decide (c ≠ '\n')) '\n' (by decide) rest more
    rw [List.cons_append, afterSlash, htake, hdrop]
  | case2 rest t after hclose =>
    have hzero : (closeComment 1 rest).2.2 = 0 := by rw [hclose]
    have hmore := closeComment_append_right hzero ('\n' :: more)
    rw [hclose] at hmore
    simp only [List.cons_append, afterSlash, hmore]
  | case3 rest t after depth hdepth hclose =>
    have hopen : (afterSlash ('*' :: rest)).1 = .openComment ('/' :: '*' :: t) depth := by
      rw [afterSlash, hclose]
      cases depth with
      | zero => exact absurd rfl hdepth
      | succ depth => rfl
    rw [hopen, openComplaints, List.replicate_eq_nil_iff] at h
    exact absurd h hdepth
  | case4 rest hslash hstar =>
    cases rest with
    | nil => rfl
    | cons d rest =>
      refine afterSlash.eq_3 _ (fun r hr => ?_) fun r hr => ?_
      · exact hslash rest (by rw [(List.cons.inj hr).1])
      · exact hstar rest (by rw [(List.cons.inj hr).1])

theorem afterQuote_newline {rest : List Char} (h : openComplaints (afterQuote rest).1 = []) :
    afterQuote (rest ++ '\n' :: more) = ((afterQuote rest).1, (afterQuote rest).2 ++ '\n' :: more) := by
  unfold afterQuote at h ⊢
  cases hdrop : rest.dropWhile (· ≠ '\"') with
  | nil =>
    rw [hdrop] at h
    cases h
  | cons quote after =>
    have hfails : rest.dropWhile (· ≠ '\"') ≠ [] := by
      rw [hdrop]
      exact List.cons_ne_nil _ _
    rw [takeWhile_append_of_fails hfails, dropWhile_append_of_fails hfails, hdrop, List.cons_append]

theorem fraction_newline (rest : List Char) :
    fraction (rest ++ '\n' :: more) = ((fraction rest).1, (fraction rest).2 ++ '\n' :: more) := by
  have hdigit : Char.isDigit '\n' = false := by decide
  fun_cases fraction rest with
  | case1 d rest hd =>
    simp only [List.cons_append, fraction, hd, if_true, takeWhile_append_stop hdigit, dropWhile_append_stop hdigit]
  | case2 d rest hd => simp only [List.cons_append, fraction, hd, Bool.false_eq_true, if_false]
  | case3 rest hrest =>
    cases rest with
    | nil => rfl
    | cons d rest =>
      cases rest with
      | nil =>
        by_cases hd : d = '.'
        · subst hd
          rfl
        · exact fraction.eq_2 _ fun e r hr => hd (List.cons.inj hr).1
      | cons e rest =>
        refine fraction.eq_2 _ fun e' r hr => hrest e rest ?_
        rw [(List.cons.inj hr).1]

theorem number_newline (lead : Char) (rest : List Char) :
    number lead (rest ++ '\n' :: more) = ((number lead rest).1, (number lead rest).2 ++ '\n' :: more) := by
  have hdigit : Char.isDigit '\n' = false := by decide
  simp only [number, takeWhile_append_stop hdigit, dropWhile_append_stop hdigit, fraction_newline]

theorem word_newline (lead : Char) (rest : List Char) :
    word lead (rest ++ '\n' :: more) = ((word lead rest).1, (word lead rest).2 ++ '\n' :: more) := by
  have hword : isWordChar '\n' = false := by decide
  simp only [word, takeWhile_append_stop hword, dropWhile_append_stop hword]

theorem symbol_newline (kind : Token.Kind) (lead : Char) (rest : List Char) :
    symbol kind lead (rest ++ '\n' :: more) = ((symbol kind lead rest).1, (symbol kind lead rest).2 ++ '\n' :: more) := by
  fun_cases symbol kind lead rest with
  | case1 rest kind' h => simp only [List.cons_append, symbol, h]
  | case2 rest h => simp only [List.cons_append, symbol, h]
  | case3 rest h =>
    cases rest with
    | nil => rfl
    | cons d rest =>
      refine symbol.eq_2 _ _ _ fun r hr => h rest ?_
      rw [(List.cons.inj hr).1]

theorem next_newline {c : Char} {rest : List Char} (h : openComplaints (next c rest).1 = []) :
    next c (rest ++ '\n' :: more) = ((next c rest).1, (next c rest).2 ++ '\n' :: more) := by
  unfold next at h ⊢
  split
  · exact afterSlash_newline more (by simpa [*] using h)
  split
  · exact afterQuote_newline more (by simpa [*] using h)
  split
  · exact symbol_newline more _ c rest
  split
  · exact number_newline more c rest
  split
  · exact word_newline more c rest
  split <;> rfl

theorem next_length (c : Char) (rest : List Char) : (next c rest).2.length ≤ rest.length := by
  have hlength := congrArg List.length (next_text c rest)
  have hpos := List.length_pos_iff.2 (next_text_ne_nil c rest)
  simp only [List.length_append, List.length_cons] at hlength
  omega

theorem cutAtMost_of_le {count : Nat} {source : List Char} (h : source.length ≤ count) :
    cutAtMost count source = cut source := by
  unfold cut
  induction count using Nat.strongRecOn generalizing source with
  | ind count ih =>
    cases source with
    | nil => cases count <;> rfl
    | cons c rest =>
      have hnext := next_length c rest
      cases count with
      | zero => simp at h
      | succ count =>
        have hle : rest.length ≤ count := by simpa using h
        change (next c rest).1 :: cutAtMost count (next c rest).2 =
          (next c rest).1 :: cutAtMost rest.length (next c rest).2
        rw [ih count (by omega) (by omega), ih rest.length (by omega) hnext]

theorem cut_cons (c : Char) (rest : List Char) : cut (c :: rest) = (next c rest).1 :: cut (next c rest).2 := by
  change (next c rest).1 :: cutAtMost rest.length (next c rest).2 = _
  rw [cutAtMost_of_le (next_length c rest)]

theorem cut_newline (q : List Char) : cut ('\n' :: q) = .blank '\n' :: cut q := cut_cons '\n' q

/-- A newline after a text that leaves nothing open is a piece of its own. -/
theorem cut_append_newline {p : List Char} (h : ∀ x ∈ cut p, openComplaints x = []) (q : List Char) :
    cut (p ++ '\n' :: q) = cut p ++ .blank '\n' :: cut q := by
  induction hn : p.length using Nat.strongRecOn generalizing p with
  | ind n ih =>
    cases p with
    | nil => exact cut_newline q
    | cons c rest =>
      have hnext := next_length c rest
      rw [List.length_cons] at hn
      rw [cut_cons, List.forall_mem_cons] at h
      have hrest := ih (next c rest).2.length (by omega) h.2 rfl
      rw [List.cons_append, cut_cons, next_newline q h.1, hrest, cut_cons, List.cons_append]

theorem tokensFrom_append (line : Int) (ps : List Piece) : ∃ body, tokensFrom line ps = body ++
      [⟨.eof, "", ps.foldl endLine line, none⟩] ∧
    ∀ qs, tokensFrom line (ps ++ qs) = body ++ tokensFrom (ps.foldl endLine line) qs := by
  induction ps generalizing line with
  | nil => exact ⟨[], rfl, fun _ => rfl⟩
  | cons p ps ih =>
    obtain ⟨body, hps, happend⟩ := ih (endLine line p)
    cases p with
    | token kind t =>
      refine ⟨⟨kind, String.ofList t, endLine line (token kind t), literal? kind t⟩ :: body, ?_, fun qs => ?_⟩
      · simp only [tokensFrom, hps, List.foldl_cons, List.cons_append]
      · simp only [List.cons_append, tokensFrom, happend, List.foldl_cons]
    | _ => exact ⟨body, hps, happend⟩

theorem tokensFrom_add (line k : Int) (ps : List Piece) :
    tokensFrom (line + k) ps = (tokensFrom line ps).map (Token.reline (· + k)) := by
  induction ps generalizing line with
  | nil => rfl
  | cons p ps ih =>
    have hend : endLine (line + k) p = endLine line p + k := by
      simp only [endLine]
      omega
    cases p with
    | token kind t => simp only [tokensFrom, hend, ih, List.map_cons, Token.reline]
    | _ => simp only [tokensFrom, hend, ih]

theorem foldl_endLine (line : Int) (ps : List Piece) :
    ps.foldl endLine line = line + newlines (ps.flatMap text) := by
  induction ps generalizing line with
  | nil => simp [newlines]
  | cons p ps ih =>
    rw [List.foldl_cons, ih, endLine, List.flatMap_cons, newlines, newlines, newlines, List.count_append]
    omega

end Piece

namespace Token

def linesOf (p : String) : Nat := 1 + Piece.newlines p.toList

section join

variable {p : String} (h : ∀ x ∈ Piece.cut p.toList, Piece.openComplaints x = [])

theorem endLine_join (p : String) :
    Piece.endLine ((Piece.cut p.toList).foldl Piece.endLine 1) (.blank '\n') = 1 + linesOf p := by
  have hnewline : Piece.newlines (Piece.text (.blank '\n')) = 1 := rfl
  rw [Piece.foldl_endLine, Piece.cut_text, Piece.endLine, hnewline, linesOf]
  omega

include h

theorem cut_join (q : String) :
    Piece.cut (p ++ "\n" ++ q).toList = Piece.cut p.toList ++ .blank '\n' :: Piece.cut q.toList := by
  rw [String.toList_append, String.toList_append, List.append_assoc]
  exact Piece.cut_append_newline h q.toList

theorem tokens_join (q : String) : ∃ body last, (scan p).1 = body ++ [last] ∧ last.kind = .eof ∧
    (scan (p ++ "\n" ++ q)).1 = body ++ (scan q).1.map (reline (· + linesOf p)) := by
  obtain ⟨body, hbody, happend⟩ := Piece.tokensFrom_append 1 (Piece.cut p.toList)
  refine ⟨body, _, hbody, rfl, ?_⟩
  simp only [scan, cut_join h, happend, ← Piece.tokensFrom_add, ← endLine_join]
  rfl

end join

theorem scan_join {p : String} (h : (scan p).2 = []) (q : String) :
    (∃ body last, (scan p).1 = body ++ [last] ∧ last.kind = .eof ∧
      (scan (p ++ "\n" ++ q)).1 = body ++ (scan q).1.map (reline (· + linesOf p))) ∧
    ((scan q).2 = [] → (scan (p ++ "\n" ++ q)).2 = []) := by
  have hclean : ∀ x ∈ Piece.cut p.toList, x.Clean := (Piece.reports_eq_nil _).1 h
  have hopen : ∀ x ∈ Piece.cut p.toList, Piece.openComplaints x = [] := fun x hx => (hclean x hx).1
  refine ⟨tokens_join hopen q, fun hq => ?_⟩
  have hclean' : ∀ x ∈ Piece.cut q.toList, x.Clean := (Piece.reports_eq_nil _).1 hq
  refine (Piece.reports_eq_nil _).2 fun x hx => ?_
  rw [cut_join hopen, List.mem_append, List.mem_cons] at hx
  obtain hx | rfl | hx := hx
  · exact hclean x hx
  · exact ⟨rfl, fun c => Piece.noConfusion⟩
  · exact hclean' x hx

theorem scan_newlines {q : String} (h : (scan q).2 = []) (n : Nat) :
    scan (String.ofList (List.replicate n '\n') ++ q) = ((scan q).1.map (reline (· + n)), []) := by
  have hcut : Piece.cut (String.ofList (List.replicate n '\n') ++ q).toList =
      List.replicate n (.blank '\n') ++ Piece.cut q.toList := by
    rw [String.toList_append, String.toList_ofList]
    induction n with
    | zero => rfl
    | succ n ih =>
      rw [List.replicate_succ, List.cons_append, Piece.cut_newline, ih, List.replicate_succ, List.cons_append]
  have htokens : ∀ line : Int, Piece.tokensFrom line (List.replicate n (.blank '\n') ++ Piece.cut q.toList) =
      Piece.tokensFrom (line + n) (Piece.cut q.toList) := by
    clear hcut
    induction n with
    | zero => simp
    | succ n ih =>
      intro line
      have hline : Piece.endLine line (.blank '\n') + n = line + ((n + 1 : Nat) : Int) := by
        simp [Piece.endLine, Piece.text, Piece.newlines]
        omega
      rw [List.replicate_succ, List.cons_append, ← hline]
      exact ih _
  have hclean : ∀ x ∈ Piece.cut q.toList, x.Clean := (Piece.reports_eq_nil _).1 h
  have hreports : Piece.reports (List.replicate n (.blank '\n') ++ Piece.cut q.toList) = [] := by
    refine (Piece.reports_eq_nil _).2 fun x hx => ?_
    obtain hx | hx := List.mem_append.1 hx
    · rw [List.eq_of_mem_replicate hx]
      exact ⟨rfl, fun c => Piece.noConfusion⟩
    · exact hclean x hx
  simp only [scan, hcut, htokens, hreports, Piece.tokensFrom_add]

theorem scan_line_pos (q : String) : ∀ t ∈ (scan q).1, 1 ≤ t.line := by
  have htokens : ∀ (ps : List Piece) (line : Int), 1 ≤ line → ∀ t ∈ Piece.tokensFrom line ps, 1 ≤ t.line := by
    intro ps
    induction ps with
    | nil =>
      intro line hline t ht
      rw [List.mem_singleton.1 ht]
      exact hline
    | cons p ps ih =>
      intro line hline
      have hend : 1 ≤ Piece.endLine line p := by
        unfold Piece.endLine
        omega
      cases p with
      | token kind t => exact List.forall_mem_cons.2 ⟨hend, ih _ hend⟩
      | _ => exact ih _ hend
  exact htokens _ 1 (Int.le_refl 1)

end Token

end LoxLang
