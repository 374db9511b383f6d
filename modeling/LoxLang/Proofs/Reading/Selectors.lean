import LoxLang.Proofs.Reading.Choices
import LoxLang.Proofs.Reading.Recovery
import LoxLang.Proofs.Reading.TreeLaw

namespace LoxLang

open Reader

variable {ts : List Token}

/-- From some place on the rule for selectors takes these tokens for this tree, with these reports. -/
def Reader.ReadsSelector (us : List Token) (new : List Report) (e : Expr) : Prop :=
  ∃ (n : Nat) (c d : Cursor), c.Moves d us new ∧ Grammar.equality n (unary n) c = .ok e d

theorem Reader.equality_inside {n : Nat} {c d : Cursor} {e : Expr} (h : Grammar.equality n (unary n) c = .ok e d) :
    c.rest ≠ [] := by
  obtain ⟨before, rest, loops, reports⟩ := c
  rintro rfl
  have hunary : ∀ n, unary n ⟨before, [], loops, reports⟩ = .error .stuck ⟨before, [], loops, reports⟩ := by
    rintro (_ | n)
    · rfl
    · simp only [unary, Grammar.unary]
      exact Stopping.bind_error rfl
  have hequality : Grammar.equality n (unary n) ⟨before, [], loops, reports⟩ =
      .error .stuck ⟨before, [], loops, reports⟩ := by
    unfold Grammar.equality
    induction Grammar.binaryLevels with
    | nil => exact hunary n
    | cons ops levels ih => exact Stopping.bind_error ih
  rw [hequality] at h
  cases h

theorem Reader.equality_takes {n : Nat} {c d : Cursor} {e : Expr} (hc : c.Whole)
    (h : Grammar.equality n (unary n) c = .ok e d) :
    ∃ us new, us ≠ [] ∧ c.Moves d us new ∧ (new = [] → Phrase.Equality us e) := by
  -- Nothing is known of a reader that may be short of fuel, but with enough of it the same is read.
  let m := max n (8 * c.rest.length + 1)
  have hn : n ≤ m := Nat.le_max_left _ _
  have hm : 8 * c.rest.length + 1 ≤ m := Nat.le_max_right _ _
  have hmore : Grammar.equality m (unary m) c = .ok e d := by
    rw [← h]
    exact (Grammar.equality_outlasts (deeper {} hn).unary hn).eq Expr.reline_id fun d' => by simp [h]
  have hreads : Grammar.Takes c.inLoop c.rest.length (Grammar.equality m (unary m)) Phrase.Equality :=
    Grammar.equality_reads (fun r' hr => (Grammar.readers_take m c.inLoop r').1 (by omega)) (by omega)
  have htakes := hreads c hc rfl (Nat.le_refl _)
  rw [hmore] at htakes
  obtain ⟨us, new, hmoves, hus, hequality⟩ := htakes
  exact ⟨us, new, hus rfl, hmoves, hequality⟩

theorem Reader.Chained.tokens (hts : Ended ts) {line : Int} {s : Expr} {d : Cursor} (h : Chained ts line s d) :
    ∃ us last vs c bs new, us ++ [last] ++ vs ++ d.rest <:+ ts ∧ ReadsSelector (us ++ [last]) new c ∧
      (new = [] → Phrase.Equality (us ++ [last]) c) ∧ s = grouped last.line c bs ∧ line = last.line := by
  induction h with
  | @first bodies n c d e last hc he hlast =>
    obtain ⟨before, hbefore⟩ := hc.rest
    have hwhole : c.Whole :=
      ⟨(hbefore ▸ hts).of_append (equality_inside he), hc.loops ▸ Body.tally_ne_nil bodies⟩
    obtain ⟨taken, new, htaken, hmoves, hequality⟩ := equality_takes hwhole he
    obtain ⟨us, t, rfl⟩ := List.eq_nil_or_concat taken |>.resolve_left htaken
    rw [List.concat_eq_append] at hmoves hequality
    obtain rfl : t = last := by
      simp only [previous, hmoves.before, List.reverse_append, List.reverse_singleton, List.cons_append] at hlast
      exact (EStateM.Result.ok.inj hlast).1
    refine ⟨us, t, [], e, [], new, ?_, ⟨n, c, d, hmoves, he⟩, hequality, rfl, rfl⟩
    rw [List.append_nil, ← hmoves.rest]
    exact hc.rest
  | @more line s y n c d question rest _ _ hrest hd ih =>
    obtain ⟨us, last, vs, first, bs, new, hsuffix, hread, hequality, rfl, rfl⟩ := ih
    obtain ⟨ws, rfl⟩ := hd
    refine ⟨us, last, vs ++ question :: ws, first, bs ++ [(y, n)], new, ?_, hread, hequality, by simp [grouped], rfl⟩
    rw [hrest] at hsuffix
    simpa using hsuffix

/-- A conditional is read behind a question mark of a chain. -/
def Node.Selected (ts : List Token) : Node → Prop
  | .expr (.ternary s _ _ line) => Selects ts line s
  | _ => True

def AllSelected (ts : List Token) (j : Node) : Prop :=
  ∀ k, Relation.ReflTransGen (fun a b => b ∈ Node.parts a) j k → k.Selected ts

namespace AllSelected

theorem of_parts {j : Node} (hj : j.Selected ts) (h : ∀ k ∈ j.parts, AllSelected ts k) : AllSelected ts j := by
  intro k hk
  obtain rfl | ⟨l, hl, hlk⟩ := Relation.ReflTransGen.cases_head hk
  · exact hj
  · exact h l hl k hlk

theorem part {j k : Node} (h : AllSelected ts j) (hk : k ∈ j.parts) : AllSelected ts k := fun l hl => h l (.head hk hl)

end AllSelected

def selectedLaw (ts : List Token) : TreeLaw ts where
  expr e := AllSelected ts (.expr e)
  lambda f := AllSelected ts (.lambda f)
  stmt _ t := AllSelected ts (.stmt t)
  plain _ t := AllSelected ts (.stmt t)
  constant _ := .of_parts trivial nofun
  literal _ _ := .of_parts trivial nofun
  ref _ _ := .of_parts trivial nofun
  self _ _ := .of_parts trivial nofun
  assign _ hv := .of_parts trivial (by simpa [Node.parts, Node.children] using hv)
  group he := .of_parts trivial (by simpa [Node.parts, Node.children] using he)
  unary _ _ he := .of_parts trivial (by simpa [Node.parts, Node.children] using he)
  binary _ _ hl hr := .of_parts trivial (by simpa [Node.parts, Node.children] using ⟨hl, hr⟩)
  logical _ _ hl hr := .of_parts trivial (by simpa [Node.parts, Node.children] using ⟨hl, hr⟩)
  ternary hs hc hy hn := .of_parts hs (by simpa [Node.parts, Node.children] using ⟨hc, hy, hn⟩)
  call _ _ he hes := .of_parts trivial (by simpa [Node.parts, Node.children] using ⟨he, hes⟩)
  property _ _ ho := .of_parts trivial (by simpa [Node.parts, Node.children] using ho)
  setProperty ho hv := .of_parts trivial
    (by simpa [Node.parts, Node.children] using ⟨ho.part (by simp [Node.parts, Node.children]), hv⟩)
  function hf := .of_parts trivial (by simpa [Node.parts, Node.children] using hf)
  list hes := .of_parts trivial (by simpa [Node.parts, Node.children] using hes)
  definition _ hbody := .of_parts trivial
    (by simpa [Node.parts, Node.children, Context.sequence_snd, Lambda.body] using hbody)
  of_plain := id
  expression he := .of_parts trivial (by simpa [Node.parts, Node.children] using he)
  print he := .of_parts trivial (by simpa [Node.parts, Node.children] using he)
  ret {_ _ value} _ _ h := .of_parts trivial (by cases value <;> simp_all [Node.parts, Node.children])
  block h := .of_parts trivial (by simpa [Node.parts, Node.children, Context.sequence_snd] using h)
  ifThen {_ _ _ no} hc ht hn := .of_parts trivial (by cases no <;> simp_all [Node.parts, Node.children])
  whileLoop {_ _ _ step} hc hb hs := .of_parts trivial (by
    have hstep : ∀ e, step = some e → AllSelected ts (.stmt (.expression e)) := fun e he =>
      .of_parts trivial (by simpa [Node.parts, Node.children] using hs e he)
    cases step <;> simp_all [Node.parts, Node.children])
  breakLoop _ _ := .of_parts trivial nofun
  continueLoop _ _ := .of_parts trivial nofun
  varDecl {_ _ initial} _ _ h := .of_parts trivial (by cases initial <;> simp_all [Node.parts, Node.children])
  funDecl _ _ hf := .of_parts trivial (by simpa [Node.parts, Node.children] using hf)
  classDecl _ _ h := .of_parts trivial (by simpa [Node.parts, Node.children] using fun m hm => (h m hm).2)

/-- Every conditional that is read, from a text with errors or without, stands in a chain that is read from its tokens. -/
theorem parse_selects {program : List Stmt} (h : (parse ts).1 = some program) {Δ : Context} {s y n : Expr} {line : Int}
    (hoccurs : Occurs program Δ (.expr (.ternary s y n line))) : Selects ts line s := by
  obtain ⟨x, hx, hreaches⟩ := hoccurs
  obtain ⟨t, ht, htop⟩ := List.mem_map.1 (Context.sequence_snd {} program ▸ List.mem_map_of_mem hx)
  exact (selectedLaw ts).parse h t ht _ (htop ▸ hreaches.parts)

end LoxLang
