import LoxLang.Token.Piece
import LoxLang.Tree

namespace LoxLang

/-- The kind of a token and its text agree on whether it is the word for the object of a method. -/
def Token.Proper (t : Token) : Prop :=
  (t.kind = .identifier → t.lexeme ≠ selfName) ∧ (t.kind = .kwThis → t.lexeme = selfName)

theorem Token.wordKind_proper (word : String) : wordKind word ≠ .eof ∧
    (wordKind word = .identifier → word ≠ selfName) ∧ (wordKind word = .kwThis → word = selfName) := by
  have hall : ∀ entry ∈ keywords, entry.2 ≠ .eof ∧ entry.2 ≠ .identifier ∧
      (entry.2 = .kwThis → entry.1 = selfName) := by decide
  have hself : (selfName, Kind.kwThis) ∈ keywords := by decide
  unfold wordKind
  cases h : keywords.lookup word with
  | none =>
    refine ⟨by simp, fun _ he => ?_, by simp⟩
    have hne := List.lookup_eq_none_iff.1 h _ hself
    simp [he] at hne
  | some kind =>
    obtain ⟨before, after, hlist, -⟩ := List.lookup_eq_some_iff.1 h
    have hkind := hall (word, kind) (by simp [hlist])
    exact ⟨hkind.1, fun he => absurd he hkind.2.1, hkind.2.2⟩

theorem Token.wordKind_keyword {word : String} {kind : Kind} (h : (word, kind) ∈ keywords) : wordKind word = kind := by
  have hall : ∀ entry ∈ keywords, keywords.lookup entry.1 = some entry.2 := by decide
  rw [wordKind, hall _ h, Option.getD_some]

theorem Token.wordKind_identifier {word : String} (h : ∀ kind, (word, kind) ∉ keywords) :
    wordKind word = .identifier := by
  have hlookup : keywords.lookup word = none := by
    rw [List.lookup_eq_none_iff]
    intro entry hentry
    rw [bne_iff_ne]
    rintro rfl
    exact h entry.2 hentry
  rw [wordKind, hlookup, Option.getD_none]

namespace Piece

def Genuine : Piece → Prop
  | token kind t => kind ≠ .eof ∧ (kind = .identifier → String.ofList t ≠ selfName) ∧
    (kind = .kwThis → String.ofList t = selfName)
  | _ => True

theorem symbol?_plain {c : Char} {kind : Token.Kind} (h : symbol? c = some kind) :
    kind ≠ .eof ∧ kind ≠ .identifier ∧ kind ≠ .kwThis := by
  unfold symbol? at h
  split at h <;> simp_all <;> simp [← h]

theorem extended?_plain {c : Char} {kind : Token.Kind} (h : extended? c = some kind) :
    kind ≠ .eof ∧ kind ≠ .identifier ∧ kind ≠ .kwThis := by
  unfold extended? at h
  split at h <;> simp_all <;> simp [← h]

theorem genuine_of_plain {kind : Token.Kind} (h : kind ≠ .eof ∧ kind ≠ .identifier ∧ kind ≠ .kwThis)
    (t : List Char) : (token kind t).Genuine :=
  ⟨h.1, fun he => absurd he h.2.1, fun he => absurd he h.2.2⟩

theorem next_genuine (c : Char) (rest : List Char) : (next c rest).1.Genuine := by
  unfold next
  split
  · unfold afterSlash
    split
    · trivial
    · split <;> trivial
    · exact genuine_of_plain (by decide) _
  split
  · unfold afterQuote
    split
    · trivial
    · exact genuine_of_plain (by decide) _
  split
  · rename_i kind h
    unfold symbol
    split
    · split
      · rename_i h'
        exact genuine_of_plain (extended?_plain h') _
      · exact genuine_of_plain (symbol?_plain h) _
    · exact genuine_of_plain (symbol?_plain h) _
  split
  · exact genuine_of_plain (by decide) _
  split
  · exact Token.wordKind_proper _
  split <;> trivial

theorem cutAtMost_genuine (count : Nat) (source : List Char) :
    ∀ p ∈ cutAtMost count source, p.Genuine := by
  induction count generalizing source with
  | zero => simp [cutAtMost]
  | succ count ih =>
    cases source with
    | nil => simp [cutAtMost]
    | cons c rest =>
      rw [cutAtMost, List.forall_mem_cons]
      exact ⟨next_genuine c rest, ih _⟩

theorem tokensFrom_proper (line : Int) (ps : List Piece) (h : ∀ p ∈ ps, p.Genuine) :
    ∃ body last, tokensFrom line ps = body ++ [last] ∧ last.kind = .eof ∧
      ∀ t ∈ body, t.kind ≠ .eof ∧ t.Proper := by
  induction ps generalizing line with
  | nil => exact ⟨[], _, rfl, rfl, by simp⟩
  | cons p ps ih =>
    rw [List.forall_mem_cons] at h
    obtain ⟨body, last, hps, hlast, hbody⟩ := ih (endLine line p) h.2
    cases p with
    | token kind t =>
      let first : Token := ⟨kind, String.ofList t, endLine line (token kind t), literal? kind t⟩
      have hfirst : first.kind ≠ .eof ∧ first.Proper := h.1
      exact ⟨first :: body, last, by rw [tokensFrom, hps]; rfl, hlast,
        List.forall_mem_cons.2 ⟨hfirst, hbody⟩⟩
    | blank | comment | stray | openString | openComment => exact ⟨body, last, hps, hlast, hbody⟩

end Piece

theorem Token.scan_proper (source : String) :
    ∃ body last, (scan source).1 = body ++ [last] ∧ last.kind = .eof ∧
      ∀ t ∈ body, t.kind ≠ .eof ∧ t.Proper :=
  Piece.tokensFrom_proper 1 _ (Piece.cutAtMost_genuine _ _)

theorem Token.filter_scan {s : String} {body : List Token} {last : Token} (h : (scan s).1 = body ++ [last]) :
    (scan s).1.filter (·.kind ≠ .eof) = body := by
  obtain ⟨body', last', hscan, hlast, hbody⟩ := scan_proper s
  obtain ⟨rfl, -⟩ := List.append_inj' (h.symm.trans hscan) rfl
  rw [hscan, List.filter_append, List.filter_eq_self.2 fun t ht => decide_eq_true (hbody t ht).1]
  simp [hlast]

end LoxLang
