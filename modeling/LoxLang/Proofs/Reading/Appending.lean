import LoxLang.Proofs.Reading.Exact
import LoxLang.Proofs.Reading.Recovery

namespace LoxLang

open Reader Grammar Phrase

theorem Phrase.Declarations.length_le {loop : Bool} {ts : List Token} {ss : List Stmt} :
    Declarations loop ts ss → ss.length ≤ ts.length
  | .none => Nat.le_refl 0
  | .more ht hothers => by
    obtain ⟨t, us, rfl, -⟩ := ht.next
    have hle := hothers.length_le
    simp only [List.length_cons, List.length_append]
    omega

theorem map_apply_congr {α β : Type} (f : α → β) {p q : Reader α} {c c' : Cursor} (h : p c = q c') :
    (f <$> p) c = (f <$> q) c' := by
  have hmap : ∀ (p : Reader α) (c : Cursor), (f <$> p) c = EStateM.map f p c := fun _ _ => rfl
  rw [hmap, hmap, EStateM.map, EStateM.map, h]

theorem Grammar.declarations_append {loop : Bool} {size : Nat} {declaration : Reader (Option Stmt)}
    (hd : ReadingDeclaration loop size declaration) {rest : List Token} (hrest : Next (· ≠ .kwElse) rest)
    {loops : List Nat} (hloops : loops ≠ []) (hl : decide (0 < loops.headD 0) = loop) (reports : List Report)
    (m : Nat) {ts : List Token} {ss : List Stmt} (before : List Token) (h : Declarations loop ts ss)
    (hsize : ts.length ≤ size) : declarations .eof declaration (ss.length + m) ⟨before, ts ++ rest, loops, reports⟩ =
      ((ss ++ ·) <$> declarations .eof declaration m) ⟨ts.reverse ++ before, rest, loops, reports⟩ := by
  induction ss generalizing ts before with
  | nil =>
    cases h
    simp
  | cons t others ih =>
    obtain ⟨ts, us, rfl, ht, hothers⟩ : ∃ ws us, ts = ws ++ us ∧ Declaration loop ws t ∧ Declarations loop us others := by
      cases h with
      | more ht hothers => exact ⟨_, _, rfl, ht, hothers⟩
    have hfollow : Next (· ≠ .kwElse) (us ++ rest) := by
      cases hothers with
      | none => exact hrest
      | more hu _ => exact ((hu.next.append _).append rest).mono fun _ hkind => hkind.2.2
    have hfirst := hd ts t (us ++ rest) (by simp at hsize; omega) ht hfollow before loops reports hloops hl
    have ih := ih (ts.reverse ++ before) hothers (by simp at hsize; omega)
    obtain ⟨word, vs, rfl, hword⟩ := ht.next
    have hnext : (word :: vs ++ us ++ rest) = word :: (vs ++ (us ++ rest)) := by simp
    rw [List.length_cons, Nat.add_right_comm, declarations, sees_bind hnext, atEnd_bind hnext,
      if_neg (by simp [hword.1]), List.append_assoc, Stopping.bind_ok hfirst, bind_pure_comp,
      map_apply_congr _ ih, Functor.map_map]
    simp

/-- What was read up to a place does not show in what is read from it on. -/
theorem Grammar.declarations_behind (older : List Token) {n n' m : Nat} (hn : n ≤ n') (hm : n ≤ m) {ts : List Token}
    {ss : List Stmt} {c : Cursor} (h : Reader.program n (.ofTokens ts) = .ok ss c) :
    declarations .eof (Reader.declaration n') m ⟨older, ts, [0], []⟩ = .ok ss (c.moved { older }) := by
  have hmoved := (declarations_outlasts .eof (deeper { older } hn).declaration hm).ok h
  have hstart : (Cursor.ofTokens ts).moved { older } = ⟨older, ts, [0], []⟩ := by
    simp [Cursor.moved, Cursor.ofTokens, Token.reline_id]
  rwa [hstart, ← relineStmts_eq, relineStmts_id] at hmoved

/-- Tokens read without a report give the same statements before any others, and no report about those is
made or left out for them. -/
theorem parse_append {p r : List Token} {last : Token} {ss : List Stmt} (hp : ∀ t ∈ p, t.kind ≠ .eof)
    (hlast : last.kind = .eof) (hparse : parse (p ++ [last]) = (some ss, [])) (hr : Ended r)
    (helse : ∀ t us, r = t :: us → t.kind ≠ .kwElse) : ∃ others reports, parse r = (some others, reports) ∧
      parse (p ++ r) = (some (ss ++ others), reports) := by
  obtain ⟨others, c, _, hothers, -⟩ := program_ends hr
  refine ⟨others, c.reports.reverse, by rw [parse, hothers], ?_⟩
  have hprogram : Program p ss := by
    obtain ⟨ss', reports, hparse', hsound⟩ := parse_sound hp hlast
    obtain ⟨hss, hreports⟩ := Prod.mk.inj (hparse.symm.trans hparse')
    exact Option.some.inj hss ▸ hsound hreports.symm
  have hlength := hprogram.length_le
  obtain ⟨t, us, rfl⟩ : ∃ t us, r = t :: us := by cases hr <;> exact ⟨_, _, rfl⟩
  let n := depthPerToken * ((p ++ t :: us).length + 1)
  have hn : n = 8 * p.length + 8 * us.length + 16 := by
    simp only [n, depthPerToken, List.length_append, List.length_cons]
    omega
  have hfuel : depthPerToken * ((t :: us).length + 1) = 8 * us.length + 16 := by
    simp only [depthPerToken, List.length_cons]
    omega
  -- The fuel that is left after the first statements is enough for the tokens that are left.
  obtain ⟨m, hm⟩ : ∃ m, n = ss.length + m := ⟨n - ss.length, by omega⟩
  have hfirst : Reader.program n (.ofTokens (p ++ t :: us)) =
      ((ss ++ ·) <$> declarations .eof (declaration n) m) ⟨p.reverse ++ [], t :: us, [0], []⟩ := by
    have hd := (readers_accept n false p.length).2.2.2.2.1 (by omega)
    have happend := declarations_append hd (.cons (helse t us rfl) us) (List.cons_ne_nil 0 []) rfl [] m []
      hprogram (Nat.le_refl _)
    rwa [← hm] at happend
  have hrest : declarations .eof (declaration n) m ⟨p.reverse ++ [], t :: us, [0], []⟩ =
      (pure others : Reader (List Stmt)) (c.moved { older := p.reverse ++ [] }) :=
    declarations_behind _ (by omega) (by omega) hothers
  have hread := hfirst.trans (map_apply_congr _ hrest)
  simp only [n] at hread
  rw [parse, hread]
  simp [Cursor.moved, Report.reline_id, Stopping.pure_apply]

section malformed

def statementTokens : List Token := [.identifier, .semicolon].map bareToken

def statementTree : Stmt := .expression (.ref (bareToken .identifier) none)

theorem statementTokens_append : (∀ t ∈ statementTokens, t.kind ≠ .eof) ∧ (bareToken .eof).kind = .eof ∧
    parse (statementTokens ++ [bareToken .eof]) = (some [statementTree], []) ∧ Ended malformedTokens ∧
    (∀ t us, malformedTokens = t :: us → t.kind ≠ .kwElse) ∧
    ∃ others reports, parse malformedTokens = (some others, reports) ∧
      parse (statementTokens ++ malformedTokens) = (some ([statementTree] ++ others), reports) := by
  have hproper : ∀ t ∈ statementTokens, t.kind ≠ .eof := by decide
  have hparse : parse (statementTokens ++ [bareToken .eof]) = (some [statementTree], []) := rfl
  have helse : ∀ t us, malformedTokens = t :: us → t.kind ≠ .kwElse := by
    rintro t us h
    cases h
    decide
  exact ⟨hproper, rfl, hparse, malformedTokens_ended, helse,
    parse_append hproper rfl hparse malformedTokens_ended helse⟩

end malformed

end LoxLang
