import LoxLang.Proofs.Token.Strays

namespace LoxLang

namespace Token

def lineAfter (before : List Char) : Int := 1 + Piece.newlines before

/-- How a text tiles that stands after another: the tokens in it, the characters nothing starts with, each
with its line, and what there is to say about what the text leaves open. -/
inductive Tiled : List Char → List Char → List Token → List (Int × Char) → List Complaint → Prop
  | done {before} : Tiled before [] [] [] []
  | leftOpen {before rest opened} : LeftOpen rest opened → Tiled before rest [] [] opened
  | token {before t rest kind literal body strays opened} :
      Lexeme kind t literal → Longest t rest → ¬ OpensComment (t ++ rest) →
      Tiled (before ++ t) rest body strays opened →
      Tiled before (t ++ rest) (⟨kind, String.ofList t, lineAfter (before ++ t), literal⟩ :: body) strays opened
  | gap {before t rest body strays opened} : Gap t rest → Tiled (before ++ t) rest body strays opened →
      Tiled before (t ++ rest) body strays opened
  | stray {before c rest body strays opened} : Stray c → Tiled (before ++ [c]) rest body strays opened →
      Tiled before (c :: rest) body ((lineAfter before, c) :: strays) opened

theorem lineAfter_append (before t : List Char) : lineAfter (before ++ t) = lineAfter before + Piece.newlines t := by
  rw [lineAfter, lineAfter, Piece.newlines, Piece.newlines, Piece.newlines, List.count_append]
  omega

theorem lineAfter_le (before t : List Char) : lineAfter before ≤ lineAfter (before ++ t) := by
  rw [lineAfter_append]
  omega

theorem Tiled.line_le {before rest : List Char} {body : List Token} {strays : List (Int × Char)}
    {opened : List Complaint} (h : Tiled before rest body strays opened) :
    ∀ t ∈ body, lineAfter before ≤ t.line ∧ t.line ≤ lineAfter (before ++ rest) := by
  have hwithin : ∀ {body : List Token} {before t rest : List Char},
      (∀ x ∈ body, lineAfter (before ++ t) ≤ x.line ∧ x.line ≤ lineAfter (before ++ t ++ rest)) →
      ∀ x ∈ body, lineAfter before ≤ x.line ∧ x.line ≤ lineAfter (before ++ (t ++ rest)) := by
    intro body before t rest hbody x hx
    rw [← List.append_assoc]
    exact ⟨Int.le_trans (lineAfter_le before t) (hbody x hx).1, (hbody x hx).2⟩
  induction h with
  | done | leftOpen => exact List.forall_mem_nil _
  | @token before t rest _ _ _ _ _ _ _ _ _ ih =>
    refine List.forall_mem_cons.2 ⟨⟨lineAfter_le before t, ?_⟩, hwithin ih⟩
    rw [← List.append_assoc]
    exact lineAfter_le _ _
  | gap _ _ ih => exact hwithin ih
  | @stray before c rest _ _ _ _ _ ih => exact hwithin (t := [c]) ih

theorem Tiled.lines {before rest : List Char} {body : List Token} {strays : List (Int × Char)}
    {opened : List Complaint} (h : Tiled before rest body strays opened) : body.Pairwise (·.line ≤ ·.line) := by
  induction h with
  | done | leftOpen => exact .nil
  | token _ _ _ h ih => exact .cons (fun t ht => (h.line_le t ht).1) ih
  | gap _ _ ih | stray _ _ ih => exact ih

theorem Lexeme.ne_eof {kind : Kind} {t : List Char} {literal : Option Literal} (h : Lexeme kind t literal) :
    kind ≠ .eof := by
  cases h with
  | sign h =>
    have hsigns : ∀ entry ∈ signs, entry.2 ≠ .eof := by decide
    exact hsigns _ h
  | keyword _ h =>
    have hkeywords : ∀ entry ∈ keywords, entry.2 ≠ .eof := by decide
    exact hkeywords _ h
  | string | whole | decimal | identifier => exact Kind.noConfusion

theorem Tiled.ne_eof {before rest : List Char} {body : List Token} {strays : List (Int × Char)}
    {opened : List Complaint} (h : Tiled before rest body strays opened) : ∀ t ∈ body, t.kind ≠ .eof := by
  induction h with
  | done | leftOpen => exact List.forall_mem_nil _
  | token hlexeme _ _ _ ih => exact List.forall_mem_cons.2 ⟨hlexeme.ne_eof, ih⟩
  | gap _ _ ih | stray _ _ ih => exact ih

/-- A token that is no end is spelled as its kind demands and stands for what its text says. -/
def Lexed (t : Token) : Prop := t.kind ≠ .eof → Lexeme t.kind t.lexeme.toList t.literal

theorem Tiled.lexed {before rest : List Char} {body : List Token} {strays : List (Int × Char)}
    {opened : List Complaint} (h : Tiled before rest body strays opened) : ∀ t ∈ body, t.Lexed := by
  induction h with
  | done | leftOpen => exact List.forall_mem_nil _
  | token hlexeme _ _ _ ih => exact List.forall_mem_cons.2 ⟨fun _ => by simpa using hlexeme, ih⟩
  | gap _ _ ih | stray _ _ ih => exact ih

end Token

namespace Piece

open Token

theorem Fits.tiled {p : Piece} {before rest : List Char} (h : p.Fits rest) {body : List Token}
    (hrest : Tiled (before ++ p.text) rest body (straysFrom (lineAfter (before ++ p.text)) (cut rest))
      ((cut rest).flatMap openComplaints))
    (htokens : tokensFrom (lineAfter (before ++ p.text)) (cut rest) =
      body ++ [⟨.eof, "", lineAfter (before ++ p.text ++ rest), none⟩]) :
    ∃ body, tokensFrom (lineAfter before) (p :: cut rest) =
        body ++ [⟨.eof, "", lineAfter (before ++ (p.text ++ rest)), none⟩] ∧
      Tiled before (p.text ++ rest) body (straysFrom (lineAfter before) (p :: cut rest))
        ((p :: cut rest).flatMap openComplaints) := by
  have hend : endLine (lineAfter before) p = lineAfter (before ++ p.text) := (lineAfter_append before p.text).symm
  rw [← hend, List.append_assoc] at htokens
  rw [← hend] at hrest
  cases p with
  | token kind t =>
    refine ⟨⟨kind, String.ofList t, lineAfter (before ++ t), literal? kind t⟩ :: body, ?_,
      .token h.1 h.2.1 h.2.2 hrest⟩
    rw [tokensFrom, htokens, hend]
    rfl
  | blank | comment => exact ⟨body, htokens, .gap h hrest⟩
  | stray c =>
    rw [endLine_stray h] at hrest
    exact ⟨body, htokens, .stray h hrest⟩
  | openString t =>
    obtain ⟨hopen, rfl⟩ := h
    refine ⟨[], ?_, ?_⟩
    · rw [List.append_nil, ← hend]
      rfl
    · rw [List.append_nil]
      exact .leftOpen hopen
  | openComment t depth =>
    obtain ⟨hopen, rfl⟩ := h
    refine ⟨[], ?_, ?_⟩
    · rw [List.append_nil, ← hend]
      rfl
    · change Tiled before (t ++ []) [] [] (List.replicate depth .unterminatedComment ++ [])
      rw [List.append_nil, List.append_nil]
      exact .leftOpen hopen

theorem cut_tiled (before rest : List Char) :
    ∃ body, tokensFrom (lineAfter before) (cut rest) = body ++ [⟨.eof, "", lineAfter (before ++ rest), none⟩] ∧
      Tiled before rest body (straysFrom (lineAfter before) (cut rest)) ((cut rest).flatMap openComplaints) := by
  induction hn : rest.length using Nat.strongRecOn generalizing before rest with
  | ind n ih =>
    cases rest with
    | nil =>
      refine ⟨[], ?_, .done⟩
      rw [List.append_nil]
      rfl
    | cons c rest =>
      have hlength := next_length c rest
      rw [List.length_cons] at hn
      obtain ⟨body, htokens, hrest⟩ :=
        ih (next c rest).2.length (by omega) (before ++ (next c rest).1.text) (next c rest).2 rfl
      rw [cut_cons, ← next_text c rest]
      exact (next_fits c rest).tiled hrest htokens

end Piece

theorem Token.lastLine_cut (source : List Char) : Piece.lastLine (Piece.cut source) = lineAfter source := by
  rw [Piece.lastLine, Piece.foldl_endLine, Piece.cut_text, lineAfter]

theorem Token.scan_lexed (source : String) : ∀ t ∈ (scan source).1, t.Lexed := by
  obtain ⟨body, htokens, h⟩ := Piece.cut_tiled [] source.toList
  have hscan : (scan source).1 = body ++ [⟨.eof, "", lineAfter source.toList, none⟩] := htokens
  rw [hscan]
  exact List.forall_mem_append.2 ⟨h.lexed, List.forall_mem_singleton.2 fun hkind => absurd rfl hkind⟩

/-- The scanner tiles the source. The end of the text is the last token, the only one of its kind. What is
reported is what is left open and, line by line, the characters nothing starts with. -/
theorem Token.scan_tiles (source : String) : ∃ body strays opened,
    Tiled [] source.toList body strays opened ∧
    (scan source).1 = body ++ [⟨.eof, "", lineAfter source.toList, none⟩] ∧
    (∀ t ∈ body, t.kind ≠ .eof) ∧
    (scan source).1.Pairwise (·.line ≤ ·.line) ∧
    (scan source).2 = opened.map (⟨.line (lineAfter source.toList), ·⟩) ++
      (Piece.gather strays).map fun (line, cs) => ⟨.line line, .unexpectedCharacters cs⟩ := by
  obtain ⟨body, htokens, h⟩ := Piece.cut_tiled [] source.toList
  have hscan : (scan source).1 = body ++ [⟨.eof, "", lineAfter source.toList, none⟩] := htokens
  refine ⟨body, _, _, h, hscan, h.ne_eof, ?_, ?_⟩
  · rw [hscan]
    refine List.pairwise_append.2 ⟨h.lines, List.pairwise_singleton _ _, fun t ht last hlast => ?_⟩
    rw [List.mem_singleton.1 hlast]
    exact (h.line_le t ht).2
  · rw [← lastLine_cut]
    rfl

end LoxLang
