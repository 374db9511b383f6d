import LoxLang.Proofs.Reading.Selectors
import LoxLang.Proofs.Sessions.Outcome
import LoxLang.Proofs.Stopping
import LoxLang.Proofs.Tree.Equality

namespace LoxLang

section running

variable {a : Addressing} {line : Int} {c : Expr}

/-- The branch that a selector's value takes. -/
def choose (a : Addressing) (n : Nat) (line : Int) (branches : Expr × Expr) : Value → Exec Value
  | .bool true => evaluate a n branches.1
  | .bool false => evaluate a n branches.2
  | v => do Exec.fault (.badSelector (← Exec.text v)) line

/-- The selector of a chain and then each of its conditionals, on the value of the one before. -/
def chooseAll (a : Addressing) (line : Int) : Nat → List (Expr × Expr) → Exec Value → Exec Value
  | _, [], p => p
  | n, b :: bs, p => chooseAll a line (n + 1) bs (p >>= choose a n line b)

theorem evaluate_ternary (a : Addressing) (n : Nat) (c y no : Expr) (line : Int) :
    evaluate a (n + 1) (.ternary c y no line) = evaluate a n c >>= choose a n line (y, no) := rfl

theorem evaluate_grouped (n : Nat) (bs : List (Expr × Expr)) (c : Expr) :
    evaluate a (n + bs.length) (grouped line c bs) = chooseAll a line n bs (evaluate a n c) := by
  induction bs generalizing n c with
  | nil => rfl
  | cons b bs ih =>
    have h := ih (n + 1) (.ternary c b.1 b.2 line)
    rw [evaluate_ternary, Nat.add_right_comm] at h
    exact h

theorem choose_fault {n : Nat} {branches : Expr × Expr} {v : Value} {s : Store} {text : String}
    (hv : ∀ b, v ≠ .bool b) (htext : v.text? s.lists = some text) :
    choose a n line branches v s = .error (.fault ⟨.badSelector text, line⟩) s := by
  have hfault : (do Exec.fault (.badSelector (← Exec.text v)) line : Exec Value) s =
      .error (.fault ⟨.badSelector text, line⟩) s := by
    have hshown : Exec.text v s = .ok text s := by
      unfold Exec.text
      rw [Stopping.get_bind, htext]
      rfl
    rw [Stopping.bind_ok hshown]
    rfl
  cases v with
  | bool b => exact absurd rfl (hv b)
  | _ => exact hfault

theorem chooseAll_error {n : Nat} {bs : List (Expr × Expr)} {p : Exec Value} {s t : Store} {e : Stop}
    (h : p s = .error e t) : chooseAll a line n bs p s = .error e t := by
  induction bs generalizing n p with
  | nil => exact h
  | cons b bs ih => exact ih (Stopping.bind_error h)

theorem chooseAll_append (n : Nat) (bs cs : List (Expr × Expr)) (p : Exec Value) :
    chooseAll a line n (bs ++ cs) p = chooseAll a line (n + bs.length) cs (chooseAll a line n bs p) := by
  induction bs generalizing n p with
  | nil => rfl
  | cons b bs ih =>
    have h := ih (n + 1) (p >>= choose a n line b)
    rw [Nat.add_right_comm] at h
    exact h

theorem chooseAll_fault {n : Nat} {bs rest : List (Expr × Expr)} {b : Expr × Expr} {p : Exec Value} {s t : Store}
    {v : Value} {text : String} (hp : chooseAll a line n bs p s = .ok v t) (hv : ∀ b, v ≠ .bool b)
    (htext : v.text? t.lists = some text) :
    chooseAll a line n (bs ++ b :: rest) p s = .error (.fault ⟨.badSelector text, line⟩) t := by
  have hlast : (chooseAll a line n bs p >>= choose a (n + bs.length) line b) s =
      .error (.fault ⟨.badSelector text, line⟩) t := by
    rw [Stopping.bind_ok hp]
    exact choose_fault hv htext
  rw [chooseAll_append]
  exact @chooseAll_error a line _ rest _ s t _ hlast

end running

section binding

def bindBranches (here : Surroundings) : List (Expr × Expr) → Binder (List (Expr × Expr))
  | [] => pure []
  | (y, n) :: bs => do
    let y ← y.bind here
    let n ← n.bind here
    return (y, n) :: (← bindBranches here bs)

theorem bind_grouped (here : Surroundings) (line : Int) (c : Expr) (bs : List (Expr × Expr)) :
    (grouped line c bs).bind here = do
      let c ← c.bind here
      return grouped line c (← bindBranches here bs) := by
  induction bs generalizing c with
  | nil => simp [grouped, bindBranches]
  | cons b bs ih =>
    have h := ih (.ternary c b.1 b.2 line)
    simp only [Expr.bind, bind_assoc, pure_bind] at h
    simpa [grouped, bindBranches] using h

end binding

open Phrase

theorem parse_chain {ts : List Token} {e : Expr} {semicolon last : Token} (h : Conditional ts e)
    (hsemicolon : semicolon.kind = .semicolon) (hlast : last.kind = .eof) :
    parse (ts ++ [semicolon] ++ [last]) = (some [.expression e], []) := by
  have hstatement : Program (ts ++ [semicolon] ++ []) [.expression e] :=
    .more (.statement (.expression h.expression hsemicolon)) .none
  rw [List.append_nil] at hstatement
  exact parse_complete hlast hstatement

/-- A chain is grouped to the left, and so not nested to the right if it has two conditionals or more. It runs
them from the left to the right, each on the value of the one before, up to a value that is no boolean. -/
theorem chains_group_left {us vs : List Token} {last : Token} {c : Expr} {bs : List (Expr × Expr)}
    (hc : Equality (us ++ [last]) c) (hbs : Branches vs bs) :
    (∀ semicolon stop : Token, semicolon.kind = .semicolon → stop.kind = .eof →
      parse (us ++ [last] ++ vs ++ [semicolon] ++ [stop]) =
        (some [.expression (grouped last.line c bs)], [])) ∧
    (Nested c bs (grouped last.line c bs) ↔ bs.length ≤ 1) ∧
    (∀ here, (grouped last.line c bs).bind here = do
      let c ← c.bind here
      return grouped last.line c (← bindBranches here bs)) ∧
    ∀ (a : Addressing) (n : Nat) (line : Int) (c : Expr) (bs : List (Expr × Expr)),
      evaluate a (n + bs.length) (grouped line c bs) = chooseAll a line n bs (evaluate a n c) ∧
      ∀ before b rest s v t text, bs = before ++ b :: rest →
        chooseAll a line n before (evaluate a n c) s = .ok v t → (∀ b, v ≠ .bool b) →
        v.text? t.lists = some text →
        evaluate a (n + bs.length) (grouped line c bs) s = .error (.fault ⟨.badSelector text, line⟩) t := by
  have hchain : Conditional (us ++ [last] ++ vs) (grouped last.line c bs) :=
    .chain (choiceChain_iff.2 ⟨us, last, vs, c, bs, rfl, hc, hbs, rfl, rfl⟩)
  refine ⟨fun semicolon stop hsemicolon hstop => parse_chain hchain hsemicolon hstop, hbs.nested_iff _ _,
    fun here => bind_grouped here _ _ _, fun a n line c bs => ⟨evaluate_grouped n bs c, ?_⟩⟩
  intro before b rest s v t text hsplit hvalue hv htext
  rw [evaluate_grouped, hsplit]
  exact chooseAll_fault hvalue hv htext

section chain

def chainText : String := "print true ? \"a\" : false ? \"b\" : \"c\";"

def chainBranches : List (Expr × Expr) :=
  [(.literal (.text "a"), .literal (.bool false)), (.literal (.text "b"), .literal (.text "c"))]

/-- The text is read as the group, whose run is a fault; nested to the right it would show the first branch. -/
theorem chainText_faults :
    parse (Token.scan chainText).1 = (some [.print (grouped 1 (.literal (.bool true)) chainBranches)], []) ∧
    runProgram .byDistance 9 [.print (grouped 1 (.literal (.bool true)) chainBranches)] {} =
      .error (.fault ⟨.badSelector "a", some 1⟩) {} ∧
    ∃ e, Nested (.literal (.bool true)) chainBranches e ∧
      runProgram .byDistance 9 [.print e] {} = .ok () { printed := #["a"] } := by
  refine ⟨by decide +kernel, rfl, .ternary (.literal (.bool true)) (.literal (.text "a"))
    (.ternary (.literal (.bool false)) (.literal (.text "b")) (.literal (.text "c")) 1) 1, ?_, rfl⟩
  exact .more 1 (.more 1 .last)

theorem chainTokens_grouped :
    let t (kind : Token.Kind) : Token := ⟨kind, "", 1, none⟩
    let text (x : String) : Token := ⟨.string, "", 1, some (.text x)⟩
    let branches := [t .question, text "a", t .colon, t .kwFalse, t .question, text "b", t .colon, text "c"]
    let c : Expr := .literal (.bool true)
    Equality [t .kwTrue] c ∧ Branches branches chainBranches ∧
    parse ([t .kwTrue] ++ branches ++ [t .semicolon] ++ [t .eof]) =
      (some [.expression (grouped 1 c chainBranches)], []) ∧
    evaluate .byDistance 5 (grouped 1 c chainBranches) {} = .error (.fault ⟨.badSelector "a", some 1⟩) {} := by
  intro t text branches c
  have hc : Equality [t .kwTrue] c := (Primary.yes rfl).equality
  have htext : ∀ x, Equality [text x] (.literal (.text x)) := fun x => (Primary.literal (.tail _ (.head _))).equality
  have hbranches : Branches branches chainBranches :=
    .more rfl (htext "a").conditional rfl (Primary.no (t := t .kwFalse) rfl).equality
      (.more rfl (htext "b").conditional rfl (htext "c") .none)
  obtain ⟨hparse, -, -, hruns⟩ := @chains_group_left [] _ (t .kwTrue) c chainBranches hc hbranches
  obtain ⟨-, hfault⟩ := hruns .byDistance 3 1 c chainBranches
  refine ⟨hc, hbranches, hparse (t .semicolon) (t .eof) rfl rfl, ?_⟩
  exact hfault [_] _ [] {} (.text "a") {} "a" rfl rfl (by simp) rfl

end chain

/-- The line of a conditional, also beside errors, is that on which the first selector of its chain ends, which is the
last token of the conditional's own selector when the chain begins with it. A selector that is no boolean is blamed on
that line. -/
theorem selector_lines {source : String} {program : List Stmt} {reports : List Report}
    (hread : parse (Token.scan source).1 = (some program, reports)) {Δ : Context} {s y n : Expr} {line : Int}
    (hoccurs : Occurs program Δ (.expr (.ternary s y n line))) :
    (∃ us last vs c bs question new, us ++ [last] ++ vs ++ [question] <:+: (Token.scan source).1 ∧
      Reader.ReadsSelector (us ++ [last]) new c ∧ (new = [] → Equality (us ++ [last]) c) ∧
      question.kind = .question ∧ s = grouped last.line c bs ∧ line = last.line) ∧
    (reports = [] → ∃ us last vs c bs question, us ++ [last] ++ vs ++ [question] <:+: (Token.scan source).1 ∧
      Equality (us ++ [last]) c ∧ Branches vs bs ∧ question.kind = .question ∧
      s = grouped last.line c bs ∧ line = last.line) ∧
    ∀ a k s y n σ v τ text, evaluate a k s σ = .ok v τ → (∀ b, v ≠ .bool b) → v.text? τ.lists = some text →
      evaluate a (k + 1) (.ternary s y n line) σ = .error (.fault ⟨.badSelector text, line⟩) τ := by
  obtain ⟨body, stop, hscan, hstop, hbody⟩ := Token.scan_proper source
  refine ⟨?_, ?_, fun a k s y n σ v τ text hs hv htext => ?_⟩
  · have hended : Ended (Token.scan source).1 := hscan ▸ ended_append (fun t ht => (hbody t ht).1) hstop
    obtain ⟨d, question, rest, hchain, hquestion, hrest⟩ := parse_selects (by rw [hread]) hoccurs
    obtain ⟨us, last, vs, c, bs, new, hsuffix, hselector, hequality, hs, hline⟩ := hchain.tokens hended
    refine ⟨us, last, vs, c, bs, question, new, ?_, hselector, hequality, hquestion, hs, hline⟩
    rw [hrest] at hsuffix
    exact List.IsInfix.trans ⟨[], rest, by simp⟩ hsuffix.isInfix
  · rintro rfl
    obtain ⟨program', reports, hparse, hsound⟩ := parse_sound (fun t ht => (hbody t ht).1) hstop
    rw [← hscan, hread] at hparse
    cases hparse
    obtain ⟨ts, hts, hpart⟩ := (hsound rfl).among hoccurs
    cases hpart.chain with
    | first he => exact absurd rfl (he.not_ternary s y n _)
    | @more _ ss ys ns question colon _ _ _ hs hquestion =>
      obtain ⟨us, first, vs, c, bs, rfl, hc, hbs, rfl, rfl⟩ := choiceChain_iff.1 hs
      refine ⟨us, first, vs, c, bs, question, ?_, hc, hbs, hquestion, rfl, rfl⟩
      rw [hscan]
      refine List.IsInfix.trans ?_ (hts.trans (List.prefix_append _ _).isInfix)
      exact ⟨[], ys ++ colon :: ns, by simp⟩
  · rw [evaluate_ternary, Stopping.bind_ok hs]
    exact choose_fault hv htext

section spread

def spreadText : String := "print true\n? \"a\"\n: \"b\"\n? \"c\" : \"d\";"

def spreadSelector : Expr := .ternary (.literal (.bool true)) (.literal (.text "a")) (.literal (.text "b")) 1

def spreadTree : List Stmt :=
  [.print (.ternary spreadSelector (.literal (.text "c")) (.literal (.text "d")) 1)]

theorem spreadText_read : parse (Token.scan spreadText).1 = (some spreadTree, []) := by decide +kernel

theorem spreadText_occurs :
    Occurs spreadTree {} (.expr (.ternary spreadSelector (.literal (.text "c")) (.literal (.text "d")) 1)) :=
  .child (.top (List.mem_singleton.2 rfl)) (List.mem_singleton.2 rfl)

/-- The selector of the second conditional ends on line 3, and its fault is blamed on line 1. -/
theorem spreadText_misplaced : parse (Token.scan spreadText).1 = (some spreadTree, []) ∧
    Occurs spreadTree {} (.expr (.ternary spreadSelector (.literal (.text "c")) (.literal (.text "d")) 1)) ∧
    ∃ before ts last after, (Token.scan spreadText).1 = before ++ (ts ++ [last]) ++ after ∧
      Conditional (ts ++ [last]) spreadSelector ∧ last.line = 3 ∧
      runProgram .byDistance 9 spreadTree {} = .error (.fault ⟨.badSelector "a", some 1⟩) {} := by
  let first : Token := ⟨.kwTrue, "true", 1, none⟩
  let question : Token := ⟨.question, "?", 2, none⟩
  let yes : Token := ⟨.string, "\"a\"", 2, some (.text "a")⟩
  let colon : Token := ⟨.colon, ":", 3, none⟩
  let no : Token := ⟨.string, "\"b\"", 3, some (.text "b")⟩
  have hyes : Equality [yes] (.literal (.text "a")) := (Primary.literal (.tail _ (.head _))).equality
  have hno : Equality [no] (.literal (.text "b")) := (Primary.literal (.tail _ (.head _))).equality
  have hfirst : ChoiceChain Equality Conditional 1 [first] (.literal (.bool true)) :=
    @ChoiceChain.first _ _ [] first _ (Primary.yes rfl).equality
  have hselector : Conditional [first, question, yes, colon, no] spreadSelector :=
    .chain (.more hfirst rfl hyes.conditional rfl hno)
  let after : List Token := [⟨.question, "?", 4, none⟩, ⟨.string, "\"c\"", 4, some (.text "c")⟩,
    ⟨.colon, ":", 4, none⟩, ⟨.string, "\"d\"", 4, some (.text "d")⟩, ⟨.semicolon, ";", 4, none⟩, ⟨.eof, "", 4, none⟩]
  refine ⟨spreadText_read, spreadText_occurs, [⟨.kwPrint, "print", 1, none⟩], [first, question, yes, colon], no,
    after, rfl, hselector, rfl, rfl⟩

theorem spreadText_line : ∃ us last vs c bs question, us ++ [last] ++ vs ++ [question] <:+: (Token.scan spreadText).1 ∧
    Equality (us ++ [last]) c ∧ Branches vs bs ∧ question.kind = .question ∧
    spreadSelector = grouped last.line c bs ∧ 1 = last.line :=
  (selector_lines spreadText_read spreadText_occurs).2.1 rfl

end spread

end LoxLang
