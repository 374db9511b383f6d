import LoxLang.Proofs.Token.Newlines
import Mathlib.Data.List.TakeWhile

namespace LoxLang

namespace Token

def signs : List (List Char × Kind) :=
  [(['('], .leftParen), ([')'], .rightParen), (['{'], .leftBrace), (['}'], .rightBrace),
   (['['], .leftBracket), ([']'], .rightBracket), ([','], .comma), (['.'], .dot), (['-'], .minus),
   (['+'], .plus), ([';'], .semicolon), (['*'], .star), (['/'], .slash), (['!'], .bang),
   (['='], .equal), (['<'], .less), (['>'], .greater), ([':'], .colon), (['?'], .question),
   (['!', '='], .bangEqual), (['=', '='], .equalEqual), (['<', '='], .lessEqual),
   (['>', '='], .greaterEqual)]

def Digits (t : List Char) : Prop := t ≠ [] ∧ ∀ c ∈ t, c.isDigit

def Word (t : List Char) : Prop :=
  (∀ c ∈ t, c.isAlphanum ∨ c = '_') ∧ ∃ c cs, t = c :: cs ∧ c.isDigit = false

/-- The texts of each kind of token and what they stand for. -/
inductive Lexeme : Kind → List Char → Option Literal → Prop
  | sign {kind t} : (t, kind) ∈ signs → Lexeme kind t none
  | string {inner} : '\"' ∉ inner →
      Lexeme .string ('\"' :: inner ++ ['\"']) (some (.text (String.ofList inner)))
  | whole {t} : Digits t → Lexeme .number t (some (.number (Number.read t)))
  | decimal {t u} : Digits t → Digits u →
      Lexeme .number (t ++ '.' :: u) (some (.number (Number.read (t ++ '.' :: u))))
  | keyword {kind t} : Word t → (String.ofList t, kind) ∈ keywords → Lexeme kind t none
  | identifier {t} : Word t → (∀ kind, (String.ofList t, kind) ∉ keywords) → Lexeme .identifier t none

/-- No token of any kind starts where the first text does and ends in the second. -/
def Longest (t rest : List Char) : Prop :=
  ∀ kind other literal, Lexeme kind other literal → other <+: t ++ rest → other.length ≤ t.length

def OpensComment (t : List Char) : Prop := ['/', '/'] <+: t ∨ ['/', '*'] <+: t

def blanks : List Char := [' ', '\r', '\t', '\n']

/-- How many block comments are open before a text and after it. No two marks share a character, and
nothing is read once the last comment is closed. -/
inductive Commented : Nat → List Char → Nat → Prop
  | done {depth} : Commented depth [] depth
  | closes {depth t left} : Commented depth t left → Commented (depth + 1) ('*' :: '/' :: t) left
  | opens {depth t left} : Commented (depth + 2) t left → Commented (depth + 1) ('/' :: '*' :: t) left
  | passes {depth c t left} : ¬ ['*', '/'] <+: c :: t → ¬ ['/', '*'] <+: c :: t →
      Commented (depth + 1) t left → Commented (depth + 1) (c :: t) left

/-- What stands between tokens with nothing wrong about it: a blank, a comment up to the end of its line,
a block comment with those inside it. -/
inductive Gap : List Char → List Char → Prop
  | blank {c rest} : c ∈ blanks → Gap [c] rest
  | line {t rest} : '\n' ∉ t → (∀ c ∈ rest.head?, c = '\n') → Gap ('/' :: '/' :: t) rest
  | block {t rest} : Commented 1 t 0 → Gap ('/' :: '*' :: t) rest

def Stray (c : Char) : Prop := c ∉ blanks ∧ ∀ kind t literal, ¬ Lexeme kind (c :: t) literal

/-- What the end of the text leaves open, and what there is to say about it. -/
inductive LeftOpen : List Char → List Complaint → Prop
  | string {inner} : '\"' ∉ inner → LeftOpen ('\"' :: inner) [.unterminatedString]
  | comment {t depth} : Commented 1 t (depth + 1) →
      LeftOpen ('/' :: '*' :: t) (List.replicate (depth + 1) .unterminatedComment)

theorem mem_signs_single {c : Char} {kind : Kind} : ([c], kind) ∈ signs ↔ Piece.symbol? c = some kind := by
  constructor
  · intro h
    simp only [signs, List.mem_cons, Prod.mk.injEq, List.cons.injEq, and_true, reduceCtorEq, false_and,
      and_false, List.not_mem_nil, or_false] at h
    rcases h with h | h | h | h | h | h | h | h | h | h | h | h | h | h | h | h | h | h | h <;>
      obtain ⟨rfl, rfl⟩ := h <;> rfl
  · intro h
    unfold Piece.symbol? at h
    split at h <;> simp_all <;> simp [← h, signs]

theorem mem_signs_double {c d : Char} {kind : Kind} :
    ([c, d], kind) ∈ signs ↔ d = '=' ∧ Piece.extended? c = some kind := by
  constructor
  · intro h
    simp only [signs, List.mem_cons, Prod.mk.injEq, List.cons.injEq, and_true, reduceCtorEq, false_and,
      and_false, List.not_mem_nil, or_false, false_or] at h
    rcases h with h | h | h | h <;> obtain ⟨⟨rfl, rfl⟩, rfl⟩ := h <;> exact ⟨rfl, rfl⟩
  · rintro ⟨rfl, h⟩
    unfold Piece.extended? at h
    split at h <;> simp_all <;> simp [← h, signs]

theorem extended?_symbol {c : Char} {kind : Kind} (h : Piece.extended? c = some kind) :
    ∃ kind', Piece.symbol? c = some kind' := by
  unfold Piece.extended? at h
  split at h
  all_goals first | exact ⟨_, rfl⟩ | cases h

theorem symbol?_other {c : Char} {kind : Kind} (h : Piece.symbol? c = some kind) :
    c ≠ '\"' ∧ c.isDigit = false ∧ Piece.isWordChar c = false ∧ c ∉ blanks := by
  unfold Piece.symbol? at h
  split at h
  all_goals first | decide | cases h

theorem isWordChar_iff {c : Char} : Piece.isWordChar c ↔ c.isAlphanum ∨ c = '_' := by
  simp [Piece.isWordChar]

theorem isBlank_iff {c : Char} : Piece.isBlank c ↔ c ∈ blanks := by
  simp [Piece.isBlank, blanks, or_assoc]

theorem isWordChar_of_isDigit {c : Char} (h : c.isDigit) : Piece.isWordChar c := by
  simp [Piece.isWordChar, Char.isAlphanum, h]

theorem Lexeme.head {kind : Kind} {c : Char} {t : List Char} {literal : Option Literal}
    (h : Lexeme kind (c :: t) literal) :
    (∃ k, Piece.symbol? c = some k ∧ (t = [] ∨ t = ['='] ∧ ∃ k', Piece.extended? c = some k')) ∨
    (c = '\"' ∧ ∃ inner, '\"' ∉ inner ∧ t = inner ++ ['\"']) ∨
    (c.isDigit ∧ (Digits (c :: t) ∨ ∃ a b, Digits a ∧ Digits b ∧ c :: t = a ++ '.' :: b)) ∨
    (c.isDigit = false ∧ ∀ d ∈ c :: t, Piece.isWordChar d) := by
  have hword : Word (c :: t) → c.isDigit = false ∧ ∀ d ∈ c :: t, Piece.isWordChar d := by
    rintro ⟨hall, d, ds, hd, hdigit⟩
    cases hd
    exact ⟨hdigit, fun d hd => isWordChar_iff.2 (hall d hd)⟩
  generalize hs : c :: t = s at h
  cases h with
  | sign hmem =>
    subst hs
    have hlength : ∀ e ∈ signs, e.1.length = 1 ∨ e.1.length = 2 := by decide
    refine .inl ?_
    obtain hone | htwo := hlength _ hmem
    · obtain rfl : t = [] := by simpa using hone
      exact ⟨kind, mem_signs_single.1 hmem, .inl rfl⟩
    · obtain ⟨d, rfl⟩ : ∃ d, t = [d] := List.length_eq_one_iff.1 (by simpa using htwo)
      obtain ⟨rfl, hext⟩ := mem_signs_double.1 hmem
      obtain ⟨k, hk⟩ := extended?_symbol hext
      exact ⟨k, hk, .inr ⟨rfl, kind, hext⟩⟩
  | string hinner =>
    cases hs
    exact .inr (.inl ⟨rfl, _, hinner, rfl⟩)
  | whole hdigits =>
    subst hs
    exact .inr (.inr (.inl ⟨hdigits.2 c List.mem_cons_self, .inl hdigits⟩))
  | @decimal a b ha hb =>
    have hc : c ∈ a := by
      cases a with
      | nil => exact absurd rfl ha.1
      | cons d a =>
        cases hs
        exact List.mem_cons_self
    exact .inr (.inr (.inl ⟨ha.2 c hc, .inr ⟨a, b, ha, hb, rfl⟩⟩))
  | keyword h =>
    subst hs
    exact .inr (.inr (.inr (hword h)))
  | identifier h =>
    subst hs
    exact .inr (.inr (.inr (hword h)))

theorem Lexeme.ne_nil {kind : Kind} {t : List Char} {literal : Option Literal} (h : Lexeme kind t literal) :
    t ≠ [] := by
  rintro rfl
  generalize hs : [] = s at h
  cases h with
  | sign hmem =>
    subst hs
    exact absurd hmem (by simp [signs])
  | string => cases hs
  | whole hdigits => exact hdigits.1 hs.symm
  | decimal => simp at hs
  | keyword h | identifier h =>
    obtain ⟨-, c, cs, hc, -⟩ := h
    rw [hc] at hs
    cases hs

variable {c : Char} {t rest : List Char}

section head

variable {kind : Kind} {literal : Option Literal}

theorem Lexeme.of_symbol {k : Kind} (hc : Piece.symbol? c = some k) (h : Lexeme kind (c :: t) literal) :
    t = [] ∨ t = ['='] ∧ ∃ k', Piece.extended? c = some k' := by
  obtain ⟨hquote, hdigit, hword, -⟩ := symbol?_other hc
  obtain ⟨-, -, ht⟩ | ⟨rfl, -⟩ | ⟨hdigit', -⟩ | ⟨-, hword'⟩ := h.head
  · exact ht
  · exact absurd rfl hquote
  · simp [hdigit] at hdigit'
  · simp [hword] at hword'

theorem Lexeme.of_quote (h : Lexeme kind ('\"' :: t) literal) : ∃ inner, '\"' ∉ inner ∧ t = inner ++ ['\"'] := by
  obtain ⟨k, hk, -⟩ | ⟨-, ht⟩ | ⟨hdigit, -⟩ | ⟨-, hword⟩ := h.head
  · cases hk
  · exact ht
  · exact absurd hdigit (by decide)
  · exact absurd (hword '\"' List.mem_cons_self) (by decide)

theorem Lexeme.of_digit (hc : c.isDigit) (h : Lexeme kind (c :: t) literal) :
    Digits (c :: t) ∨ ∃ a b, Digits a ∧ Digits b ∧ c :: t = a ++ '.' :: b := by
  obtain ⟨k, hk, -⟩ | ⟨rfl, -⟩ | ⟨-, ht⟩ | ⟨hdigit, -⟩ := h.head
  · rw [(symbol?_other hk).2.1] at hc
    cases hc
  · exact absurd hc (by decide)
  · exact ht
  · rw [hdigit] at hc
    cases hc

theorem Lexeme.of_letter (hdigit : c.isDigit = false) (hword : Piece.isWordChar c)
    (h : Lexeme kind (c :: t) literal) : ∀ d ∈ t, Piece.isWordChar d := by
  obtain ⟨k, hk, -⟩ | ⟨rfl, -⟩ | ⟨hdigit', -⟩ | ⟨-, ht⟩ := h.head
  · rw [(symbol?_other hk).2.2.1] at hword
    cases hword
  · exact absurd hword (by decide)
  · rw [hdigit] at hdigit'
    cases hdigit'
  · exact (List.forall_mem_cons.1 ht).2

end head

/-- To be the longest it is enough to be as long as those that start with the same character. -/
theorem Longest.of_head (h : ∀ kind other literal more, Lexeme kind (c :: other) literal →
    other ++ more = t ++ rest → other.length ≤ t.length) : Longest (c :: t) rest := by
  rintro kind other literal hlexeme ⟨more, hmore⟩
  cases other with
  | nil => exact absurd rfl hlexeme.ne_nil
  | cons d other =>
    obtain ⟨rfl, htail⟩ := List.cons.inj hmore
    exact Nat.succ_le_succ (h kind other literal more hlexeme htail)

theorem longest_single {kind : Kind} (h : Piece.symbol? c = some kind)
    (hrest : '=' ∈ rest.head? → Piece.extended? c = none) : Longest [c] rest := by
  refine Longest.of_head fun kind other literal more hlexeme hmore => ?_
  obtain rfl | ⟨rfl, k, hext⟩ := hlexeme.of_symbol h
  · exact Nat.le_refl 0
  · rw [hrest (by rw [← List.nil_append rest, ← hmore]; rfl)] at hext
    cases hext

theorem longest_double {kind : Kind} (h : Piece.extended? c = some kind) : Longest [c, '='] rest := by
  refine Longest.of_head fun kind other literal more hlexeme hmore => ?_
  obtain ⟨k, hk⟩ := extended?_symbol h
  obtain rfl | ⟨rfl, -⟩ := hlexeme.of_symbol hk
  · exact Nat.zero_le 1
  · exact Nat.le_refl 1

theorem takeWhile_quote {inner : List Char} (h : '\"' ∉ inner) (rest : List Char) :
    (inner ++ '\"' :: rest).takeWhile (· ≠ '\"') = inner := by
  rw [takeWhile_append_stop (by decide)]
  exact List.takeWhile_eq_self_iff.2 fun c hc => decide_eq_true fun he : c = '\"' => h (he ▸ hc)

theorem longest_string {inner : List Char} (h : '\"' ∉ inner) :
    Longest ('\"' :: (inner ++ ['\"'])) rest := by
  refine Longest.of_head fun kind other literal more hlexeme hmore => ?_
  obtain ⟨inner', h', rfl⟩ := hlexeme.of_quote
  have hinner : inner' = inner := by
    have htake := congrArg (List.takeWhile (· ≠ '\"')) hmore
    simpa only [List.append_assoc, List.singleton_append, takeWhile_quote h', takeWhile_quote h] using htake
  exact le_of_eq (by rw [hinner])

theorem longest_word (hdigit : c.isDigit = false) (hword : Piece.isWordChar c) :
    Longest (c :: rest.takeWhile Piece.isWordChar) (rest.dropWhile Piece.isWordChar) := by
  refine Longest.of_head fun kind other literal more hlexeme hmore => ?_
  rw [List.takeWhile_append_dropWhile] at hmore
  rw [← hmore, List.takeWhile_append_of_pos (hlexeme.of_letter hdigit hword), List.length_append]
  exact Nat.le_add_right _ _

theorem fraction_digits {b : List Char} (h : Digits b) (rest : List Char) :
    b.length < (Piece.fraction ('.' :: (b ++ rest))).1.length := by
  obtain ⟨hne, hall⟩ := h
  cases b with
  | nil => exact absurd rfl hne
  | cons d b =>
    rw [List.forall_mem_cons] at hall
    rw [List.cons_append, Piece.fraction, if_pos hall.1, List.takeWhile_append_of_pos hall.2]
    simp only [List.length_cons, List.length_append]
    omega

theorem longest_number (hdigit : c.isDigit) :
    Longest (c :: (rest.takeWhile Char.isDigit ++ (Piece.fraction (rest.dropWhile Char.isDigit)).1))
      (Piece.fraction (rest.dropWhile Char.isDigit)).2 := by
  refine Longest.of_head fun kind other literal more hlexeme hmore => ?_
  rw [List.append_assoc, Piece.fraction_append, List.takeWhile_append_dropWhile] at hmore
  rw [List.length_append]
  obtain hwhole | ⟨a, b, ha, hb, heq⟩ := hlexeme.of_digit hdigit
  · rw [← hmore, List.takeWhile_append_of_pos (List.forall_mem_cons.1 hwhole.2).2, List.length_append]
    omega
  · -- The digits before the point are all there are, and the point is followed by a digit.
    cases a with
    | nil => exact absurd rfl ha.1
    | cons d a =>
      obtain ⟨rfl, hother⟩ := List.cons.inj heq
      change other = a ++ '.' :: b at hother
      subst hother
      have hall := (List.forall_mem_cons.1 ha.2).2
      have hpoint : Char.isDigit '.' = false := by decide
      have htake : rest.takeWhile Char.isDigit = a := by
        rw [← hmore, List.append_assoc, List.cons_append, takeWhile_append_stop hpoint]
        exact List.takeWhile_eq_self_iff.2 hall
      have hdrop : rest.dropWhile Char.isDigit = '.' :: (b ++ more) := by
        rw [← hmore, List.append_assoc, List.cons_append, dropWhile_append_stop hpoint,
          List.dropWhile_eq_nil_iff.2 hall, List.nil_append]
      have hfraction := fraction_digits hb more
      rw [htake, hdrop, List.length_append, List.length_cons]
      omega

end Token

namespace Piece

open Token

/-- What a piece is said to be, in front of what follows it. -/
def Fits : Piece → List Char → Prop
  | token kind t, rest => Lexeme kind t (literal? kind t) ∧ Longest t rest ∧ ¬ OpensComment (t ++ rest)
  | blank c, rest => Gap [c] rest
  | comment t, rest => Gap t rest
  | stray c, _ => Stray c
  | openString t, rest => LeftOpen t [.unterminatedString] ∧ rest = []
  | openComment t depth, rest => LeftOpen t (List.replicate depth .unterminatedComment) ∧ rest = []

theorem not_opensComment {c : Char} {t : List Char} (h : c ≠ '/') : ¬ OpensComment (c :: t) := by
  rintro (hopens | hopens) <;> exact h (List.cons_prefix_cons.1 hopens).1.symm

theorem closeComment_commented (depth : Nat) (rest : List Char) :
    Commented depth (closeComment depth rest).1 (closeComment depth rest).2.2 ∧
      ((closeComment depth rest).2.2 ≠ 0 → (closeComment depth rest).2.1 = []) := by
  fun_induction closeComment depth rest with
  | case1 rest => exact ⟨.done, fun h => absurd rfl h⟩
  | case2 depth => exact ⟨.done, fun _ => rfl⟩
  | case3 depth rest t after left heq ih =>
    rw [heq] at ih
    exact ⟨.closes ih.1, ih.2⟩
  | case4 depth rest t after left heq ih =>
    rw [heq] at ih
    exact ⟨.opens ih.1, ih.2⟩
  | case5 depth c rest hclose hopen t after left heq ih =>
    have happend := closeComment_append (depth + 1) rest
    rw [heq] at ih happend
    subst happend
    refine ⟨.passes ?_ ?_ ih.1, ih.2⟩
    · intro hopens
      obtain ⟨rfl, s, rfl⟩ := List.cons_prefix_cons.1 hopens
      exact hclose (s ++ after) rfl rfl
    · intro hopens
      obtain ⟨rfl, s, rfl⟩ := List.cons_prefix_cons.1 hopens
      exact hopen (s ++ after) rfl rfl

theorem head?_dropWhile_ne {a c : Char} {rest : List Char} (h : c ∈ (rest.dropWhile (· ≠ a)).head?) : c = a := by
  have hnot := List.head?_dropWhile_not (fun c : Char => decide (c ≠ a)) rest
  rw [Option.mem_def.1 h] at hnot
  simpa using hnot

theorem afterSlash_fits (rest : List Char) : (afterSlash rest).1.Fits (afterSlash rest).2 := by
  fun_cases afterSlash rest with
  | case1 rest =>
    refine Gap.line (fun h => ?_) fun c hc => ?_
    · simpa using List.mem_takeWhile_imp h
    · exact head?_dropWhile_ne hc
  | case2 rest t after hclose =>
    have h := (closeComment_commented 1 rest).1
    rw [hclose] at h
    exact Gap.block h
  | case3 rest t after depth hdepth hclose =>
    have h := closeComment_commented 1 rest
    rw [hclose] at h
    obtain ⟨left, rfl⟩ := Nat.exists_eq_succ_of_ne_zero hdepth
    exact ⟨.comment h.1, h.2 hdepth⟩
  | case4 rest hslash hstar =>
    refine ⟨.sign (by decide), longest_single rfl fun _ => rfl, ?_⟩
    rintro (hopens | hopens)
    · obtain ⟨-, s, hs⟩ := List.cons_prefix_cons.1 hopens
      exact hslash s hs.symm
    · obtain ⟨-, s, hs⟩ := List.cons_prefix_cons.1 hopens
      exact hstar s hs.symm

theorem afterQuote_fits (rest : List Char) : (afterQuote rest).1.Fits (afterQuote rest).2 := by
  have hinner : '\"' ∉ rest.takeWhile (· ≠ '\"') := fun h => by simpa using List.mem_takeWhile_imp h
  unfold afterQuote
  split
  · exact ⟨.string hinner, rfl⟩
  · rename_i quote after hdrop
    obtain rfl : quote = '\"' := head?_dropWhile_ne (a := '\"') (by rw [hdrop]; rfl)
    refine ⟨?_, longest_string hinner, not_opensComment (by decide)⟩
    have hliteral : literal? .string ('\"' :: (rest.takeWhile (· ≠ '\"') ++ ['\"'])) =
        some (.text (String.ofList (rest.takeWhile (· ≠ '\"')))) := by
      rw [literal?, List.drop_one, List.tail_cons, List.dropLast_concat]
    exact hliteral ▸ .string hinner

theorem symbol_fits {kind : Token.Kind} {lead : Char} (h : symbol? lead = some kind) (hslash : lead ≠ '/')
    (rest : List Char) : (symbol kind lead rest).1.Fits (symbol kind lead rest).2 := by
  have hliteral : literal? kind = fun _ => none := by
    unfold symbol? at h
    split at h <;> cases h <;> rfl
  have hsingle : ∀ rest, ('=' ∈ rest.head? → extended? lead = none) →
      (token kind [lead]).Fits rest := fun rest hrest =>
    ⟨hliteral ▸ .sign (mem_signs_single.2 h), longest_single h hrest, not_opensComment hslash⟩
  fun_cases symbol kind lead rest with
  | case1 rest kind' hext =>
    have hliteral' : literal? kind' = fun _ => none := by
      unfold extended? at hext
      split at hext <;> cases hext <;> rfl
    exact ⟨hliteral' ▸ .sign (mem_signs_double.2 ⟨rfl, hext⟩), longest_double hext, not_opensComment hslash⟩
  | case2 rest hext => exact hsingle _ fun _ => hext
  | case3 rest hrest =>
    refine hsingle rest fun heq => ?_
    obtain ⟨more, rfl⟩ := List.head?_eq_some_iff.1 heq
    exact absurd rfl (hrest more)

theorem fraction_fst (rest : List Char) :
    (fraction rest).1 = [] ∨ ∃ u, Digits u ∧ (fraction rest).1 = '.' :: u := by
  unfold fraction
  split
  · split
    · rename_i d after hd
      exact .inr ⟨d :: after.takeWhile Char.isDigit,
        ⟨List.cons_ne_nil _ _, List.forall_mem_cons.2 ⟨hd, fun c => List.mem_takeWhile_imp⟩⟩, rfl⟩
    · exact .inl rfl
  · exact .inl rfl

theorem number_fits {lead : Char} (h : lead.isDigit) (rest : List Char) :
    (number lead rest).1.Fits (number lead rest).2 := by
  have hdigits : Digits (lead :: rest.takeWhile Char.isDigit) :=
    ⟨List.cons_ne_nil _ _, List.forall_mem_cons.2 ⟨h, fun c => List.mem_takeWhile_imp⟩⟩
  have hslash : lead ≠ '/' := by
    rintro rfl
    cases h
  have hlexeme : ∀ t, (t = [] ∨ ∃ u, Digits u ∧ t = '.' :: u) →
      Lexeme .number (lead :: (rest.takeWhile Char.isDigit ++ t))
        (some (.number (Number.read (lead :: (rest.takeWhile Char.isDigit ++ t))))) := by
    rintro t (rfl | ⟨u, hu, rfl⟩)
    · rw [List.append_nil]
      exact .whole hdigits
    · exact .decimal hdigits hu
  exact ⟨hlexeme _ (fraction_fst _), longest_number h, not_opensComment hslash⟩

theorem word_lexeme {t : List Char} (h : Word t) :
    Lexeme (Token.wordKind (String.ofList t)) t (literal? (Token.wordKind (String.ofList t)) t) := by
  have hplain : ∀ entry ∈ keywords, literal? entry.2 t = none := by
    intro entry hentry
    simp only [keywords, List.mem_cons, List.not_mem_nil, or_false] at hentry
    rcases hentry with rfl | rfl | rfl | rfl | rfl | rfl | rfl | rfl | rfl | rfl | rfl | rfl | rfl | rfl |
      rfl | rfl | rfl <;> rfl
  unfold wordKind
  cases hlookup : keywords.lookup (String.ofList t) with
  | none =>
    refine .identifier h fun kind hmem => ?_
    simpa using List.lookup_eq_none_iff.1 hlookup _ hmem
  | some kind =>
    obtain ⟨before, after, hlist, -⟩ := List.lookup_eq_some_iff.1 hlookup
    have hmem : (String.ofList t, kind) ∈ keywords := by simp [hlist]
    rw [Option.getD_some, hplain _ hmem]
    exact .keyword h hmem

theorem word_fits {lead : Char} (hdigit : lead.isDigit = false) (hword : isWordChar lead) (rest : List Char) :
    (word lead rest).1.Fits (word lead rest).2 := by
  have hall : ∀ c ∈ lead :: rest.takeWhile isWordChar, isWordChar c :=
    List.forall_mem_cons.2 ⟨hword, fun c => List.mem_takeWhile_imp⟩
  have hslash : lead ≠ '/' := by
    rintro rfl
    exact absurd hword (by decide)
  exact ⟨word_lexeme ⟨fun c hc => isWordChar_iff.1 (hall c hc), lead, _, rfl, hdigit⟩,
    longest_word hdigit hword, not_opensComment hslash⟩

/-- What each piece of a text is called, the grammar says that it is. -/
theorem next_fits (c : Char) (rest : List Char) : (next c rest).1.Fits (next c rest).2 := by
  unfold next
  split
  · exact afterSlash_fits rest
  split
  · exact afterQuote_fits rest
  split
  · rename_i hslash _ _ kind h
    exact symbol_fits h hslash rest
  split
  · exact number_fits ‹_› rest
  split
  · exact word_fits (by simpa using ‹¬ c.isDigit = true›) ‹_› rest
  split
  · exact Gap.blank (isBlank_iff.1 ‹_›)
  · refine ⟨fun h => absurd (isBlank_iff.2 h) ‹_›, fun kind t literal h => ?_⟩
    obtain ⟨k, hk, -⟩ | ⟨rfl, -⟩ | ⟨hdigit, -⟩ | ⟨-, hword⟩ := h.head
    · simp_all
    · simp_all
    · simp_all
    · simp_all

end Piece
end LoxLang
