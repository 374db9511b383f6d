import LoxLang.Proofs.Reading.Completeness
import LoxLang.Proofs.Reading.Soundness

namespace LoxLang

open Phrase

theorem Phrase.Program.unique {ts : List Token} {ss ss' : List Stmt} (h : Program ts ss)
    (h' : Program ts ss') : ss = ss' := by
  let last : Token := ⟨.eof, "", 1, none⟩
  have hread : parse (ts ++ [last]) = (some ss, []) := parse_complete rfl h
  rw [parse_complete rfl h'] at hread
  exact (Option.some.inj (Prod.mk.inj hread).1).symm

/-- Whatever the tokens before the end, reading ends. It reports nothing just if they derive from the grammar, and
gives the tree of the derivation then. -/
theorem parse_reads_program (body : List Token) (last : Token) (hbody : ∀ t ∈ body, t.kind ≠ .eof)
    (hlast : last.kind = .eof) :
    (∃ ss reports, parse (body ++ [last]) = (some ss, reports)) ∧
      ((parse (body ++ [last])).2 = [] ↔ ∃ ss, Program body ss) ∧
      ∀ ss, Program body ss → parse (body ++ [last]) = (some ss, []) := by
  obtain ⟨ss, reports, hparse, hsound⟩ := parse_sound hbody hlast
  refine ⟨⟨ss, reports, hparse⟩, ⟨fun h => ⟨ss, hsound (by simpa [hparse] using h)⟩, ?_⟩, ?_⟩
  · rintro ⟨ss', h⟩
    rw [parse_complete hlast h]
  · exact fun ss' h => parse_complete hlast h

theorem parse_reads_nested_if :
    let t (kind : Token.Kind) : Token := ⟨kind, "", 1, none⟩
    let test := [t .kwIf, t .leftParen, t .identifier, t .rightParen]
    let branch := [t .identifier, t .semicolon]
    let body := test ++ test ++ branch ++ [t .kwElse] ++ branch
    let x : Expr := .ref (t .identifier) none
    (∀ u ∈ body, u.kind ≠ .eof) ∧ (t .eof).kind = .eof ∧
      (parse (body ++ [t .eof])).1 = some [.ifThen x (.ifThen x (.expression x) (some (.expression x))) none] := by
  intro t test branch body x
  have hx : Expression [t .identifier] x := .value (.of_call (.primary (.ref rfl)))
  have hbranch : Statement false false branch (.expression x) := .expression hx rfl
  have hinner : Statement false false (test ++ branch ++ [t .kwElse] ++ branch) _ :=
    @Statement.ifElse false false (t .kwIf) (t .leftParen) (t .rightParen) (t .kwElse) [t .identifier]
      branch branch x _ _ rfl rfl hx rfl hbranch rfl hbranch
  have houter : Statement false true body _ :=
    @Statement.ifThen false false (t .kwIf) (t .leftParen) (t .rightParen) [t .identifier] _ x _
      rfl rfl hx rfl hinner
  have hprogram : Program (body ++ []) _ := .more (.statement houter) .none
  have hbody : ∀ u ∈ body, u.kind ≠ .eof := by decide
  exact ⟨hbody, rfl, congrArg Prod.fst ((parse_reads_program body (t .eof) hbody rfl).2.2 _ hprogram)⟩

end LoxLang
