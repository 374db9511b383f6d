import LoxLang.Proofs.Loops.Quiet
import LoxLang.Proofs.Reading.Recovery

namespace LoxLang

open LoxLang.Stopping Body Reader

def Token.outsideLoop (t : Token) : Report := ⟨.token t, .outsideLoop t.lexeme⟩

theorem Reader.expect_reports {α : Type} (kind : Token.Kind) (what : String) (k : α) (c : Cursor) :
    ∃ new, (place ((expect kind what >>= fun _ => pure k) c)).reports = new ++ c.reports ∧
      ∀ r ∈ new, ¬r.complaint.IsOutsideLoop := by
  obtain ⟨before, _ | ⟨t, us⟩, loops, reports⟩ := c
  · exact ⟨[], rfl, by simp⟩
  · by_cases ht : t.kind ≠ .eof ∧ decide (t.kind = kind) = true
    · have htake : accept kind ⟨before, t :: us, loops, reports⟩ = .ok (some t) ⟨t :: before, us, loops, reports⟩ :=
        if_pos ht
      exact ⟨[], by rw [expect, bind_assoc, bind_ok htake]; rfl, by simp⟩
    · have htake : accept kind ⟨before, t :: us, loops, reports⟩ = .ok none ⟨before, t :: us, loops, reports⟩ :=
        if_neg ht
      refine ⟨[⟨.token t, .expected what⟩], ?_, by simp [Complaint.IsOutsideLoop]⟩
      rw [expect, bind_assoc, bind_ok htake]
      rfl

theorem Grammar.jump_reports (keyword : Token) (node : Token → Stmt) (c : Cursor) :
    (place (jump keyword node c)).reports = keyword.outsideLoop :: c.reports ↔ c.inLoop = false := by
  have hjump : jump keyword node c = (if c.inLoop then (do
      let _ ← expect .semicolon ("';' after '" ++ keyword.lexeme ++ "'")
      pure (node keyword)) else giveUp keyword (.outsideLoop keyword.lexeme)) c := rfl
  rw [hjump]
  cases c.inLoop with
  | false => exact iff_of_true rfl rfl
  | true =>
    obtain ⟨new, hreports, hnew⟩ :=
      expect_reports .semicolon ("';' after '" ++ keyword.lexeme ++ "'") (node keyword) c
    refine iff_of_false (fun h => ?_) Bool.true_eq_false.mp
    have hjumped : new = [keyword.outsideLoop] := List.append_cancel_right (hreports.symm.trans h)
    exact hnew keyword.outsideLoop (hjumped ▸ List.mem_cons_self) trivial

theorem Reader.statement_of_jump {c : Cursor} {t : Token} {us : List Token} (hc : c.rest = t :: us)
    (ht : t.kind = .kwBreak ∨ t.kind = .kwContinue) (n : Nat) : ∃ node,
      statement (n + 1) c = Grammar.jump t node { c with before := t :: c.before, rest := us } := by
  have htake : take? Grammar.startsPlainStmt c = .ok (some t) { c with before := t :: c.before, rest := us } := by
    obtain ht | ht := ht <;> simp [take?, hc, ht, Grammar.startsPlainStmt]
  simp only [statement, Grammar.statement]
  obtain ht | ht := ht
  · refine ⟨.breakLoop, ?_⟩
    rw [bind_ok htake]
    simp only [ht]
  · refine ⟨.continueLoop, ?_⟩
    rw [bind_ok htake]
    simp only [ht]

section watched

variable {ts : List Token} {bodies : List Body} {c : Cursor}

/-- Where a statement begins, the tally of the loops is that of the bodies around, and the reports that are made in
the statement stay to the end. -/
theorem BeginsStatement.loops (hts : Ended ts) (h : BeginsStatement ts bodies c) : c.loops = tally bodies ∧
    ∀ made, (∀ n, made <:+ (place (statement (n + 1) c)).reports) → ∀ r ∈ made, r ∈ (parse ts).2 := by
  obtain ⟨d, hd⟩ := h
  obtain ⟨ss, e, last, hprogram, -⟩ := program_ends hts
  have hparse : (parse ts).2 = e.reports.reverse := by rw [parse, hprogram]
  have hstops : ∀ made : List Report, (c.loops = tally bodies → ∀ n, made <:+ (place (statement (n + 1) c)).reports) →
      made <:+ e.reports := by
    intro made hmade
    have htracks : ∀ n, Tracks made ts [] (watched (fun around place => ¬(around = bodies ∧ place = c)) n)
        (program n) _ := watched_tracks (jumpsLaw ts) fun around place hplace hnot => by
      obtain ⟨rfl, rfl⟩ := not_not.1 hnot
      exact hmade hplace.loops
    have h := htracks (depthPerToken * (ts.length + 1)) (Cursor.ofTokens ts) ⟨rfl, List.suffix_refl ts⟩
    rw [hd, hprogram] at h
    cases h with
    | stopped _ _ h => exact h
  refine ⟨?_, fun made hmade r hr => ?_⟩
  · -- Else no statement begins here that a reading has to track, and it could as well have made more reports.
    by_contra hne
    have hlong := hstops (default :: e.reports) fun h => absurd h hne
    exact absurd hlong.length_le (by simp)
  · rw [hparse, List.mem_reverse]
    exact (hstops made fun _ => hmade).subset hr

theorem beginsStatement_first {t : Token} (us : List Token)
    (ht : t.kind ∉ [Token.Kind.eof, .kwClass, .kwFun, .kwVar]) :
    BeginsStatement (t :: us) [] (Cursor.ofTokens (t :: us)) := by
  simp only [List.mem_cons, List.not_mem_nil, or_false, not_or] at ht
  obtain ⟨heof, hclass, hfun, hvar⟩ := ht
  let c := Cursor.ofTokens (t :: us)
  let watch := fun around place => ¬(around = ([] : List Body) ∧ place = c)
  have haccept : ∀ kind, t.kind ≠ kind → accept kind c = .ok none c := fun kind hkind =>
    if_neg fun h => hkind (of_decide_eq_true h.2)
  have hnamed : Grammar.seesNamedFunction c = .ok false c := by
    rw [Grammar.seesNamedFunction, get_bind]
    cases us with
    | nil => rfl
    | cons u us => simp [c, Cursor.ofTokens, hfun, pure_apply]
  have hstatement : ∀ n, statementIn watch (n + 1) [] c = .error .stuck c := fun n =>
    bind_error (if_neg (not_not.2 ⟨rfl, rfl⟩) : stopUnless (watch []) c = .error .stuck c)
  have hdeclaration : ∀ n, declarationIn watch (n + 2) [] c = .error .stuck c := by
    intro n
    have hattempt : ∀ e b, Grammar.attempt (n + 1) e (statementIn watch (n + 1) []) b c = .error .stuck c := by
      intro e b
      rw [Grammar.attempt, bind_ok (haccept _ hclass)]
      simp only [Option.isSome_none, Bool.false_eq_true, if_false]
      rw [bind_ok hnamed]
      simp only [Bool.false_eq_true, if_false]
      rw [bind_ok (haccept _ hvar)]
      simp only [Option.isSome_none, Bool.false_eq_true, if_false, hstatement]
    simp only [declarationIn, Grammar.declaration, recovering, hattempt]
  refine ⟨c, ?_⟩
  have hfuel : ∃ n, depthPerToken * ((t :: us).length + 1) = n + 2 := ⟨8 * us.length + 14, by
    simp only [depthPerToken, List.length_cons]
    omega⟩
  obtain ⟨n, hn⟩ := hfuel
  rw [hn, watched, Grammar.declarations, sees_bind rfl, atEnd_bind rfl]
  simp only [heof, decide_false, Bool.or_false, ne_eq, not_false_eq_true, decide_true, Bool.true_and,
    Bool.false_eq_true, if_false]
  exact bind_error (hdeclaration n)

end watched

/-- What is read from any tokens up to their end has jumps in the bodies of loops only. At the beginning of a statement
a jump is reported exactly if no body of a loop is being read there in the innermost function, and so there is none
left for binding to report. -/
theorem jumps_agree (ts : List Token) (hts : Ended ts) : ∃ ss, (parse ts).1 = some ss ∧
    (∀ bodies c, BeginsStatement ts bodies c → ∀ t us, c.rest = t :: us → t.kind = .kwBreak ∨ t.kind = .kwContinue →
      (∀ n, (place (statement (n + 1) c)).reports = t.outsideLoop :: c.reports ↔ insideLoop bodies = false) ∧
        (insideLoop bodies = false → t.outsideLoop ∈ (parse ts).2)) ∧
    (∀ bodies j, StandsIn ss bodies j → j.IsJump → insideLoop bodies = true) ∧
    ∀ r ∈ (bindProgram ss).reports, ¬r.complaint.IsOutsideLoop := by
  obtain ⟨ss, c, last, -, hparse, -⟩ := (reading_advances ts hts).1
  have hread : (parse ts).1 = some ss := by rw [hparse]
  refine ⟨ss, hread, fun bodies c hc t us hrest ht => ?_, ?_, bindProgram_quiet (parse_jumpsInside hread)⟩
  · obtain ⟨hloops, hstays⟩ := hc.loops hts
    have hreports : ∀ n, (place (statement (n + 1) c)).reports = t.outsideLoop :: c.reports ↔
        insideLoop bodies = false := by
      intro n
      obtain ⟨node, hnode⟩ := statement_of_jump hrest ht n
      rw [hnode, ← inLoop_of_tally hloops]
      exact Grammar.jump_reports t node _
    refine ⟨hreports, fun hout => hstays (t.outsideLoop :: c.reports) (fun n => ?_) _ List.mem_cons_self⟩
    exact (hreports n).2 hout ▸ List.suffix_rfl
  · rintro bodies j ⟨t, ht, hj⟩ hjump
    exact parse_jumpsInside hread t ht _ hj hjump

def jumpTokens : List Token :=
  [bareToken .kwContinue, bareToken .semicolon, bareToken .eof]

theorem jumpTokens_agree : Ended jumpTokens ∧ BeginsStatement jumpTokens [] (Cursor.ofTokens jumpTokens) ∧
    (bareToken .kwContinue).outsideLoop ∈ (parse jumpTokens).2 := by
  have hended : Ended jumpTokens := by
    repeat' constructor
    all_goals decide
  have hfirst : BeginsStatement jumpTokens [] (Cursor.ofTokens jumpTokens) := beginsStatement_first _ (by decide)
  obtain ⟨ss, -, hjumps, -⟩ := jumps_agree jumpTokens hended
  exact ⟨hended, hfirst, (hjumps [] _ hfirst _ _ rfl (.inr rfl)).2 rfl⟩

end LoxLang
