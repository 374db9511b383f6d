import LoxLang.Journal
import LoxLang.Proofs.Token.Tiles

namespace LoxLang

namespace Token

theorem stray_iff {c : Char} : Stray c ↔
    c ∉ blanks ∧ c ≠ '\"' ∧ Piece.symbol? c = none ∧ Piece.isWordChar c = false := by
  constructor
  · rintro ⟨hblank, hnone⟩
    refine ⟨hblank, ?_, ?_, ?_⟩
    · rintro rfl
      exact hnone .string ['\"'] _ (.string (List.not_mem_nil : '\"' ∉ []))
    · rw [Option.eq_none_iff_forall_ne_some]
      exact fun kind hkind => hnone kind [] none (.sign (mem_signs_single.2 hkind))
    · rw [Bool.eq_false_iff]
      intro hword
      by_cases hdigit : c.isDigit
      · exact hnone .number [] _ (.whole ⟨List.cons_ne_nil _ _, List.forall_mem_singleton.2 hdigit⟩)
      · exact hnone _ [] _ (Piece.word_lexeme ⟨List.forall_mem_singleton.2 (isWordChar_iff.1 hword), c, [], rfl,
          by simpa using hdigit⟩)
  · rintro ⟨hblank, hquote, hsymbol, hword⟩
    refine ⟨hblank, fun kind t literal h => ?_⟩
    obtain ⟨k, hk, -⟩ | ⟨rfl, -⟩ | ⟨hdigit, -⟩ | ⟨-, hall⟩ := h.head
    · rw [hsymbol] at hk
      cases hk
    · exact hquote rfl
    · rw [isWordChar_of_isDigit hdigit] at hword
      cases hword
    · rw [hall c (List.mem_cons_self ..)] at hword
      cases hword

instance : DecidablePred Stray := fun _ => decidable_of_iff' _ stray_iff

end Token

/-- Where a character of a text stands. A block comment stands within any number of others. -/
inductive Surrounding where
  | code | string | line
  | comment (within : Nat)
deriving DecidableEq, Repr

namespace Surrounding

open Token

def nested : Nat → Surrounding
  | 0 => code
  | within + 1 => comment within

def complaints : Surrounding → List Complaint
  | code | line => []
  | string => [.unterminatedString]
  | comment within => List.replicate (within + 1) .unterminatedComment

theorem complaints_eq_nil {s : Surrounding} : s.complaints = [] ↔ s = code ∨ s = line := by
  cases s <;> simp [complaints]

/-- The characters in code that nothing starts with, each with its line, and where the text ends. -/
def survey (n : Int) : Surrounding → List Char → List (Int × Char) × Surrounding
  | s, [] => ([], s)
  | code, '\"' :: rest => survey n string rest
  | code, '/' :: '/' :: rest => survey n line rest
  | code, '/' :: '*' :: rest => survey n (nested 1) rest
  | code, c :: rest =>
    let (strays, ending) := survey (n + Piece.newlines [c]) code rest
    (if Stray c then (n, c) :: strays else strays, ending)
  | string, c :: rest => survey (n + Piece.newlines [c]) (if c = '\"' then code else string) rest
  | line, c :: rest => survey (n + Piece.newlines [c]) (if c = '\n' then code else line) rest
  | comment within, '*' :: '/' :: rest => survey n (nested within) rest
  | comment within, '/' :: '*' :: rest => survey n (comment (within + 1)) rest
  | comment within, c :: rest => survey (n + Piece.newlines [c]) (comment within) rest

variable {c : Char} {t rest : List Char}

theorem newlines_cons (c : Char) (t : List Char) : Piece.newlines (c :: t) = Piece.newlines [c] + Piece.newlines t := by
  rw [Piece.newlines, Piece.newlines, Piece.newlines, ← List.count_append, List.singleton_append]

theorem add_newlines_cons (n : Int) (c : Char) (t : List Char) :
    n + Piece.newlines (c :: t) = n + Piece.newlines [c] + Piece.newlines t := by
  rw [newlines_cons]
  omega

theorem survey_code (h : c ≠ '\"') (hmark : ¬ OpensComment (c :: rest)) (n : Int) : survey n code (c :: rest) =
    (if Stray c then (n, c) :: (survey (n + Piece.newlines [c]) code rest).1
      else (survey (n + Piece.newlines [c]) code rest).1, (survey (n + Piece.newlines [c]) code rest).2) := by
  refine survey.eq_5 n c rest h (fun more hc hrest => hmark ?_) fun more hc hrest => hmark ?_
  · subst hc hrest
    exact .inl ⟨more, rfl⟩
  · subst hc hrest
    exact .inr ⟨more, rfl⟩

theorem survey_plain (h : ∀ c ∈ t, c ≠ '/' ∧ c ≠ '\"' ∧ ¬ Stray c) (n : Int) :
    survey n code (t ++ rest) = survey (n + Piece.newlines t) code rest := by
  induction t generalizing n with
  | nil => simp [Piece.newlines]
  | cons c t ih =>
    obtain ⟨⟨hslash, hquote, hstray⟩, ht⟩ := List.forall_mem_cons.1 h
    rw [List.cons_append, survey_code hquote (Piece.not_opensComment hslash), if_neg hstray, ih ht,
      add_newlines_cons n c t]

theorem survey_string (h : '\"' ∉ t) (n : Int) :
    survey n string (t ++ rest) = survey (n + Piece.newlines t) string rest := by
  induction t generalizing n with
  | nil => simp [Piece.newlines]
  | cons c t ih =>
    rw [List.mem_cons, not_or] at h
    rw [List.cons_append, survey.eq_6, if_neg (Ne.symm h.1), ih h.2, add_newlines_cons n c t]

theorem survey_line (h : '\n' ∉ t) (n : Int) : survey n line (t ++ rest) = survey (n + Piece.newlines t) line rest := by
  induction t generalizing n with
  | nil => simp [Piece.newlines]
  | cons c t ih =>
    rw [List.mem_cons, not_or] at h
    rw [List.cons_append, survey.eq_7, if_neg (Ne.symm h.1), ih h.2, add_newlines_cons n c t]

theorem survey_comment (hclose : ¬ ['*', '/'] <+: c :: rest) (hopen : ¬ ['/', '*'] <+: c :: rest) (within : Nat)
    (n : Int) : survey n (comment within) (c :: rest) = survey (n + Piece.newlines [c]) (comment within) rest := by
  refine survey.eq_10 n within c rest (fun more hc hrest => hclose ?_) fun more hc hrest => hopen ?_
  · subst hc hrest
    exact ⟨more, rfl⟩
  · subst hc hrest
    exact ⟨more, rfl⟩

theorem not_mark_append {a b : Char} (h : ¬ [a, b] <+: c :: t) (hrest : t = [] → rest = []) :
    ¬ [a, b] <+: c :: (t ++ rest) := by
  cases t with
  | nil => simp [hrest rfl]
  | cons d t => simpa using h

theorem survey_commented {depth left : Nat} (h : Commented depth t left) (hrest : left = 0 ∨ rest = []) (n : Int) :
    survey n (nested depth) (t ++ rest) = survey (n + Piece.newlines t) (nested left) rest := by
  have hmark : ∀ (a b : Char) t, a ≠ '\n' → b ≠ '\n' → Piece.newlines (a :: b :: t) = Piece.newlines t := by
    intro a b t ha hb
    simp [Piece.newlines, ha, hb]
  induction h generalizing n with
  | done => simp [Piece.newlines]
  | closes _ ih =>
    rw [hmark _ _ _ (by decide) (by decide)]
    exact ih hrest n
  | opens _ ih =>
    rw [hmark _ _ _ (by decide) (by decide)]
    exact ih hrest n
  | @passes depth c t left hclose hopen hafter ih =>
    have hlast : t = [] → rest = [] := by
      rintro rfl
      cases hafter
      exact hrest.resolve_left (Nat.succ_ne_zero depth)
    rw [nested, List.cons_append, survey_comment (not_mark_append hclose hlast) (not_mark_append hopen hlast),
      add_newlines_cons n c t]
    exact ih hrest _

theorem not_stray_newline : ¬ Stray '\n' := fun h => h.1 (by decide)

theorem survey_line_end (h : ∀ c ∈ rest.head?, c = '\n') (n : Int) :
    (survey n line rest).1 = (survey n code rest).1 ∧
      (survey n line rest).2.complaints = (survey n code rest).2.complaints := by
  cases rest with
  | nil => exact ⟨rfl, rfl⟩
  | cons c rest =>
    obtain rfl := h c rfl
    rw [survey_code (by decide) (Piece.not_opensComment (by decide)), if_neg not_stray_newline, survey.eq_7, if_pos rfl]
    exact ⟨rfl, rfl⟩

theorem plain_wordChar (h : Piece.isWordChar c) : c ≠ '/' ∧ c ≠ '\"' ∧ ¬ Stray c := by
  refine ⟨?_, ?_, fun hstray => ?_⟩
  · rintro rfl
    exact absurd h (by decide)
  · rintro rfl
    exact absurd h (by decide)
  · rw [(stray_iff.1 hstray).2.2.2] at h
    cases h

theorem survey_lexeme {kind : Token.Kind} {literal : Option Literal} (h : Lexeme kind t literal)
    (hopen : ¬ OpensComment (t ++ rest)) (n : Int) :
    survey n code (t ++ rest) = survey (n + Piece.newlines t) code rest := by
  have hdigits : ∀ {ds : List Char}, Digits ds → ∀ c ∈ ds, c ≠ '/' ∧ c ≠ '\"' ∧ ¬ Stray c := fun hds c hc =>
    plain_wordChar (isWordChar_of_isDigit (hds.2 c hc))
  cases h with
  | sign hmem =>
    have hsigns : ∀ entry ∈ signs, entry.1 = ['/'] ∨
        (entry.1.all fun c => c ≠ '/' ∧ c ≠ '\"' ∧ ¬ Stray c) = true := by decide
    obtain rfl | hall := hsigns _ hmem
    · rw [List.singleton_append] at hopen ⊢
      rw [survey_code (by decide) hopen, if_neg (by decide)]
    · exact survey_plain (fun c hc => of_decide_eq_true (List.all_eq_true.1 hall c hc)) n
  | @string inner hquote =>
    have hlines : Piece.newlines ('\"' :: inner ++ ['\"']) = Piece.newlines inner := by simp [Piece.newlines]
    have hend : Piece.newlines ['\"'] = 0 := by decide
    change survey n string (inner ++ ['\"'] ++ rest) = _
    rw [List.append_assoc, survey_string hquote, hlines, List.singleton_append, survey.eq_6, if_pos rfl, hend]
    simp
  | whole hds => exact survey_plain (hdigits hds) n
  | decimal hds hes =>
    exact survey_plain (List.forall_mem_append.2 ⟨hdigits hds, List.forall_mem_cons.2 ⟨by decide, hdigits hes⟩⟩) n
  | keyword h | identifier h => exact survey_plain (fun c hc => plain_wordChar (isWordChar_iff.2 (h.1 c hc))) n

theorem survey_gap (h : Gap t rest) (n : Int) :
    (survey n code (t ++ rest)).1 = (survey (n + Piece.newlines t) code rest).1 ∧
      (survey n code (t ++ rest)).2.complaints = (survey (n + Piece.newlines t) code rest).2.complaints := by
  cases h with
  | @blank c _ hc =>
    have hblanks : (blanks.all fun c => c ≠ '/' ∧ c ≠ '\"' ∧ ¬ Stray c) = true := by decide
    have hplain := of_decide_eq_true (List.all_eq_true.1 hblanks c hc)
    rw [survey_plain (List.forall_mem_singleton.2 hplain)]
    exact ⟨rfl, rfl⟩
  | @line t _ hline hend =>
    have hlines : Piece.newlines ('/' :: '/' :: t) = Piece.newlines t := by simp [Piece.newlines]
    change (survey n line (t ++ rest)).1 = _ ∧ (survey n line (t ++ rest)).2.complaints = _
    rw [survey_line hline, hlines]
    exact survey_line_end hend _
  | @block t _ hclosed =>
    have hlines : Piece.newlines ('/' :: '*' :: t) = Piece.newlines t := by simp [Piece.newlines]
    change (survey n (nested 1) (t ++ rest)).1 = _ ∧ (survey n (nested 1) (t ++ rest)).2.complaints = _
    rw [survey_commented hclosed (.inl rfl), hlines]
    exact ⟨rfl, rfl⟩

theorem survey_leftOpen {opened : List Complaint} (h : LeftOpen t opened) (n : Int) :
    (survey n code t).1 = [] ∧ (survey n code t).2.complaints = opened := by
  cases h with
  | @string inner hquote =>
    have hsurvey : survey n string (inner ++ []) = _ := survey_string hquote n
    rw [List.append_nil] at hsurvey
    change (survey n string inner).1 = _ ∧ (survey n string inner).2.complaints = _
    rw [hsurvey]
    exact ⟨rfl, rfl⟩
  | @comment inner depth hopen =>
    have hsurvey := survey_commented hopen (.inr rfl) n
    rw [List.append_nil] at hsurvey
    change (survey n (nested 1) inner).1 = _ ∧ (survey n (nested 1) inner).2.complaints = _
    rw [hsurvey]
    exact ⟨rfl, rfl⟩

end Surrounding

namespace Piece

open Token Surrounding

/-- What a walk over a text finds in a piece of it and in what follows. -/
theorem Fits.surveyed {p : Piece} {rest : List Char} (h : p.Fits rest) (n : Int) :
    (survey n code (p.text ++ rest)).1 = straysFrom n [p] ++ (survey (endLine n p) code rest).1 ∧
    (survey n code (p.text ++ rest)).2.complaints =
      openComplaints p ++ (survey (endLine n p) code rest).2.complaints := by
  cases p with
  | token kind t =>
    have hsurvey := survey_lexeme h.1 h.2.2 n
    exact ⟨congrArg Prod.fst hsurvey, congrArg (fun r => r.2.complaints) hsurvey⟩
  | blank | comment => exact survey_gap h n
  | stray c =>
    have hstray : Stray c := h
    obtain ⟨-, hquote, hsymbol, -⟩ := stray_iff.1 hstray
    have hslash : c ≠ '/' := by
      rintro rfl
      cases hsymbol
    rw [text, List.singleton_append, survey_code hquote (not_opensComment hslash), if_pos hstray]
    exact ⟨rfl, rfl⟩
  | openString | openComment =>
    obtain ⟨hopen, rfl⟩ := h
    obtain ⟨hstrays, hcomplaints⟩ := survey_leftOpen hopen n
    rw [List.append_nil]
    exact ⟨hstrays, hcomplaints.trans (List.append_nil _).symm⟩

theorem survey_cut (source : List Char) (n : Int) :
    (survey n code source).1 = straysFrom n (cut source) ∧
      (survey n code source).2.complaints = (cut source).flatMap openComplaints := by
  induction hn : source.length using Nat.strongRecOn generalizing source n with
  | ind length ih =>
    cases source with
    | nil => exact ⟨rfl, rfl⟩
    | cons c rest =>
      have hlength := next_length c rest
      rw [List.length_cons] at hn
      obtain ⟨hstrays, hcomplaints⟩ := ih (next c rest).2.length (by omega) (next c rest).2
        (endLine n (next c rest).1) rfl
      obtain ⟨hstrays', hcomplaints'⟩ := (next_fits c rest).surveyed n
      rw [next_text, hstrays] at hstrays'
      rw [next_text, hcomplaints] at hcomplaints'
      have hfirst : ∀ p ∈ [(next c rest).1], ∀ d, p = stray d → Stray d := fun p hp =>
        cut_stray (c :: rest) p (by rw [cut_cons, List.mem_singleton.1 hp]; exact List.mem_cons_self ..)
      rw [cut_cons]
      exact ⟨hstrays'.trans (straysFrom_append hfirst n _).symm, hcomplaints'⟩

end Piece

namespace Token

open Surrounding

/-- The characters of a line that stand outside strings and comments and that nothing starts with. -/
def unexpected (source : String) (n : Int) : List Char := Piece.charsOn (survey 1 code source.toList).1 n

/-- Whether the text ends in a string or in block comments. -/
def ending (source : String) : Surrounding := (survey 1 code source.toList).2

/-- What is reported of a text: first, on its last line, the string or the comments in which it ends, and then for each
line that has any the characters that nothing starts with. -/
theorem scan_reports (source : String) : ∃ lines : List Int,
    lines.Pairwise (· < ·) ∧ (∀ n, n ∈ lines ↔ unexpected source n ≠ []) ∧
    (scan source).2 = (ending source).complaints.map (⟨.line (lineAfter source.toList), ·⟩) ++
      lines.map (fun n => ⟨.line n, .unexpectedCharacters (unexpected source n)⟩) ∧
    ∀ j : Journal, (j.reportAll (scan source).2).hadError = false ↔
      j.hadError = false ∧ (ending source = code ∨ ending source = .line) ∧ ∀ n, unexpected source n = [] := by
  obtain ⟨hstrays, hcomplaints⟩ := Piece.survey_cut source.toList 1
  obtain ⟨lines, hlines, hmem, hgather⟩ := Piece.gather_eq (Piece.straysFrom_sorted 1 (Piece.cut source.toList))
  rw [← hstrays] at hmem
  have hreports : (scan source).2 = (ending source).complaints.map (⟨.line (lineAfter source.toList), ·⟩) ++
      lines.map fun n => ⟨.line n, .unexpectedCharacters (unexpected source n)⟩ := by
    rw [scan, Piece.reports, ← hcomplaints, lastLine_cut, hgather, List.map_map, ← hstrays]
    rfl
  refine ⟨lines, hlines, hmem, hreports, fun j => ?_⟩
  have hnone : lines = [] ↔ ∀ n, unexpected source n = [] := by
    rw [List.eq_nil_iff_forall_not_mem]
    exact forall_congr' fun n => (not_congr (hmem n)).trans not_not
  rw [Journal.hadError_reportAll, hreports, List.append_eq_nil_iff, List.map_eq_nil_iff, List.map_eq_nil_iff,
    complaints_eq_nil, hnone]

end Token

end LoxLang
