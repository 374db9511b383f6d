import LoxLang.Proofs.Reading.Parts
import LoxLang.Proofs.Reading.Soundness

namespace LoxLang

namespace Phrase

inductive Branches : List Token → List (Expr × Expr) → Prop
  | none : Branches [] []
  | more {question colon : Token} {ys ns ts : List Token} {y n : Expr} {bs : List (Expr × Expr)}
      (hquestion : question.kind = .question) (hy : Conditional ys y) (hcolon : colon.kind = .colon)
      (hn : Equality ns n) (hbs : Branches ts bs) : Branches (question :: ys ++ colon :: ns ++ ts) ((y, n) :: bs)

theorem Branches.append {ts us : List Token} {bs cs : List (Expr × Expr)} (h : Branches ts bs)
    (h' : Branches us cs) : Branches (ts ++ us) (bs ++ cs) := by
  induction h with
  | none => exact h'
  | more hquestion hy hcolon hn _ ih =>
    rw [List.append_assoc]
    exact .more hquestion hy hcolon hn ih

end Phrase

/-- A chain grouped to the left. -/
def grouped (line : Int) (c : Expr) (branches : List (Expr × Expr)) : Expr :=
  branches.foldl (fun s b => .ternary s b.1 b.2 line) c

@[simp]
theorem grouped_append (line : Int) (c : Expr) (bs cs : List (Expr × Expr)) :
    grouped line c (bs ++ cs) = grouped line (grouped line c bs) cs := List.foldl_append

/-- A chain nested to the right, on any lines: each conditional stands where the one before it has its second
branch, which is its selector. -/
inductive Nested : Expr → List (Expr × Expr) → Expr → Prop
  | last {c : Expr} : Nested c [] c
  | more {c y n e : Expr} {bs : List (Expr × Expr)} (line : Int) (h : Nested n bs e) :
    Nested c ((y, n) :: bs) (.ternary c y e line)

theorem Nested.second {c e : Expr} {first second : Expr × Expr} {rest : List (Expr × Expr)}
    (h : Nested c (first :: second :: rest) e) :
    ∃ s y s' y' n' line' line, e = .ternary s y (.ternary s' y' n' line') line := by
  cases h with
  | more line h =>
    cases h with
    | more line' _ => exact ⟨_, _, _, _, _, _, _, rfl⟩

namespace Phrase

variable {ts : List Token} {e c : Expr}

theorem Equality.not_ternary (h : Equality ts e) (s y n : Expr) (line : Int) : e ≠ .ternary s y n line := by
  rintro rfl
  obtain ⟨h⟩ := h
  obtain ⟨h⟩ := h.of_ne (by simp)
  obtain ⟨h⟩ := h.of_ne (by simp)
  obtain ⟨h⟩ := h.of_ne (by simp)
  cases h.of_ne (by simp) with
  | operand h =>
    cases h with
    | primary h => cases h

theorem ChoiceChain.grouped {ss us : List Token} {line : Int} {bs : List (Expr × Expr)}
    (h : ChoiceChain Equality Conditional line ss c) (hbs : Branches us bs) :
    ChoiceChain Equality Conditional line (ss ++ us) (grouped line c bs) := by
  induction hbs generalizing ss c with
  | none => simpa [LoxLang.grouped] using h
  | more hquestion hy hcolon hn _ ih => simpa [LoxLang.grouped] using ih (.more h hquestion hy hcolon hn)

theorem choiceChain_iff {line : Int} : ChoiceChain Equality Conditional line ts e ↔ ∃ us last vs c bs,
    ts = us ++ [last] ++ vs ∧ Equality (us ++ [last]) c ∧ Branches vs bs ∧ line = last.line ∧
      e = grouped line c bs := by
  constructor
  · intro h
    induction h with
    | first hc => exact ⟨_, _, [], _, [], by simp, hc, .none, rfl, rfl⟩
    | more _ hquestion hy hcolon hn ih =>
      obtain ⟨us, last, vs, c, bs, rfl, hc, hbs, rfl, rfl⟩ := ih
      exact ⟨us, last, _, c, _, by simp, hc, hbs.append (.more hquestion hy hcolon hn .none), rfl, by simp [grouped]⟩
  · rintro ⟨us, last, vs, c, bs, rfl, hc, hbs, rfl, rfl⟩
    exact ChoiceChain.grouped (.first hc) hbs

theorem Branches.equality {bs : List (Expr × Expr)} (h : Branches ts bs) : ∀ b ∈ bs, ∃ ns, Equality ns b.2 := by
  induction h with
  | none => simp
  | more _ _ _ hn _ ih => exact List.forall_mem_cons.2 ⟨⟨_, hn⟩, ih⟩

/-- The last conditional of a group is the outermost one, and its second branch is no conditional. -/
theorem Branches.not_nested {first second : Expr × Expr} {rest : List (Expr × Expr)} {line : Int}
    (h : Branches ts (first :: second :: rest)) :
    ¬Nested c (first :: second :: rest) (LoxLang.grouped line c (first :: second :: rest)) := by
  intro hnested
  obtain ⟨s, y, s', y', n', line', line'', heq⟩ := hnested.second
  obtain ⟨init, last, hlast⟩ := (List.eq_nil_or_concat (second :: rest)).resolve_left (List.cons_ne_nil _ _)
  obtain ⟨ns, hns⟩ := h.equality last (by rw [hlast]; simp)
  rw [hlast, List.concat_eq_append, ← List.cons_append, grouped_append] at heq
  obtain ⟨-, -, hno, -⟩ := Expr.ternary.inj heq
  exact hns.not_ternary _ _ _ _ hno

theorem Branches.nested_iff {bs : List (Expr × Expr)} (h : Branches ts bs) (line : Int) (c : Expr) :
    Nested c bs (LoxLang.grouped line c bs) ↔ bs.length ≤ 1 := by
  obtain _ | ⟨first, _ | ⟨second, rest⟩⟩ := bs
  · simp [LoxLang.grouped, Nested.last]
  · simpa [LoxLang.grouped] using Nested.more line .last
  · simpa using h.not_nested

theorem Part.chain {s y n : Expr} {line : Int} (h : Part ts (.expr (.ternary s y n line))) :
    ChoiceChain Equality Conditional line ts (.ternary s y n line) := by
  cases h with
  | expr h =>
    cases h with
    | value h =>
      obtain ⟨h⟩ := h
      obtain ⟨h⟩ := h.of_ne (by simp)
      obtain ⟨h⟩ := h.of_ne (by simp)
      cases h with
      | first he => exact absurd rfl (he.not_ternary s y n line)
      | more hs hquestion hy hcolon hn => exact .more hs hquestion hy hcolon hn

end Phrase

end LoxLang
