import LoxLang.Proofs.Reading.Soundness
import LoxLang.Proofs.Running.Synchrony

namespace LoxLang

theorem Journal.hadError_later {j : Journal} {rs : List Report} (h : j.hadError = true) :
    (j.reportAll rs).hadError = true := by
  rw [← Bool.not_eq_false, hadError_reportAll]
  simp [h]

theorem parse_scan_some (source : String) :
    ∃ program reports, parse (Token.scan source).1 = (some program, reports) := by
  obtain ⟨body, last, hscan, hlast, hbody⟩ := Token.scan_proper source
  obtain ⟨program, reports, hparse, -⟩ := parse_sound (fun t ht => (hbody t ht).1) hlast
  exact ⟨program, reports, hscan ▸ hparse⟩

theorem bindProgram_ok {source : String} {program : List Stmt}
    (h : parse (Token.scan source).1 = (some program, [])) :
    ∃ bound, (bindProgram program).program = .ok bound := by
  obtain ⟨bound, hok, -⟩ := bindProgram_spec (parse_scan_plain h)
  exact ⟨bound, hok⟩

/-- The reports on a program text. Its scopes are looked at only when it is read without a report. -/
def staticReports (source : String) : List Report :=
  let read := parse (Token.scan source).1
  let reports := (Token.scan source).2 ++ read.2
  if reports.isEmpty then (bindProgram (read.1.getD [])).reports else reports

theorem staticReports_eq_nil {source : String} : staticReports source = [] ↔
    (Token.scan source).2 = [] ∧ ∃ program bound, parse (Token.scan source).1 = (some program, []) ∧
      (bindProgram program).reports = [] ∧ (bindProgram program).program = .ok bound := by
  obtain ⟨program, parsed, hparse⟩ := parse_scan_some source
  unfold staticReports
  simp only [hparse, Option.getD_some, List.isEmpty_iff, List.append_eq_nil_iff, Prod.mk.injEq,
    Option.some.injEq]
  constructor
  · intro h
    split at h
    · rename_i hnone
      obtain ⟨hscan, rfl⟩ := hnone
      obtain ⟨bound, hbound⟩ := bindProgram_ok hparse
      exact ⟨hscan, program, bound, ⟨rfl, rfl⟩, h, hbound⟩
    · rename_i hsome
      exact absurd (List.append_eq_nil_iff.1 h) hsome
  · rintro ⟨hscan, _, bound, ⟨rfl, rfl⟩, hreports, -⟩
    simp [hscan, hreports]

namespace Session

theorem executions_append (before later : List Command) (s : Session) :
    executions (before ++ later) s = executions before s ++ executions later (after before s) := by
  induction before generalizing s with
  | nil => rfl
  | cons c cs ih => simp [executions, after, ih]

/-- Nothing that a session executes ends in a defect. -/
theorem executions_sound {clock : Clock} {commands : List Command} {x : Execution}
    (hx : x ∈ executions commands { store := { clock := clock } }) (d : Defect) (t : Store) :
    x.result ≠ .error (.defect d) t := by
  obtain ⟨w, -, hw⟩ := new_in_step clock commands
  exact (hw x hx).1 d t

inductive Treated (fuel : Nat) (interactive : Bool) (source : String) (s : Session) : Prop
  | rejected (reports : List Report) (hrun : s.run fuel interactive source = (.finished, s.report reports))
      (herror : (s.report reports).journal.hadError = true)
      (hreports : s.journal.hadError = false → reports = staticReports source)
      (hprepared : prepared? interactive source s.journal = none)
  | empty (hstatic : staticReports source = []) (herror : s.journal.hadError = false)
      (hprepared : prepared? interactive source s.journal = none)
      (hrun : s.run fuel interactive source = (.finished, s))
  | executed (ss : List Stmt) (hstatic : staticReports source = []) (herror : s.journal.hadError = false)
      (hprepared : prepared? interactive source s.journal = some ss)
      (hrun : s.run fuel interactive source = s.execute fuel ss)

theorem treated (fuel : Nat) (interactive : Bool) (source : String) (s : Session) :
    Treated fuel interactive source s := by
  obtain ⟨program, parsed, hparse⟩ := parse_scan_some source
  have hreports : ∀ rs rs' : List Report, (s.report rs).report rs' = s.report (rs ++ rs') := by
    simp [report, Journal.reportAll]
  have hjournal : ∀ rs rs' : List Report, (s.journal.reportAll rs).reportAll rs' = s.journal.reportAll (rs ++ rs') := by
    simp [Journal.reportAll]
  cases herror : (s.report ((Token.scan source).2 ++ parsed)).journal.hadError with
  | true =>
    refine .rejected _ ?_ herror (fun hs => ?_) ?_
    · unfold run
      simp only [hparse, hreports, herror, if_true]
      cases program <;> rfl
    · have hsome : ¬((Token.scan source).2 = [] ∧ parsed = []) := by
        intro hnone
        rw [← List.append_eq_nil_iff] at hnone
        rw [hnone] at herror
        exact Bool.false_ne_true (hs.symm.trans herror)
      simp [staticReports, hparse, hsome]
    · have hlater := fun rs => @Journal.hadError_later _ rs herror
      cases program with
      | nil => simp [prepared?, hparse]
      | cons t ts =>
        change ∀ rs, ((s.journal.reportAll _).reportAll rs).hadError = true at hlater
        simp only [hjournal] at hlater
        simp only [prepared?, hparse, hjournal, hlater, if_true]
  | false =>
    obtain ⟨hs, hnone⟩ := (Journal.hadError_reportAll _ _).1 herror
    obtain ⟨hscan, rfl⟩ := List.append_eq_nil_iff.1 hnone
    have hsame : s.report [] = s := rfl
    obtain ⟨bound, hbound⟩ := bindProgram_ok hparse
    have hstatic : staticReports source = (bindProgram program).reports := by
      simp [staticReports, hparse, hscan]
    cases program with
    | nil =>
      refine .empty hstatic hs ?_ ?_
      · simp [prepared?, hparse]
      · unfold run
        simp only [hparse, hscan, hsame]
    | cons t ts =>
      have hrun : s.run fuel interactive source = s.bindAndExecute fuel interactive (t :: ts) := by
        unfold run
        simp only [hparse, hscan, hsame, hs, Bool.false_eq_true, if_false]
      cases hbind : (s.report (bindProgram (t :: ts)).reports).journal.hadError with
      | true =>
        refine .rejected _ (hrun.trans ?_) hbind (fun _ => hstatic.symm) ?_
        · unfold bindAndExecute
          simp only [hbound, hbind, if_true]
        · change (s.journal.reportAll _).hadError = true at hbind
          simp only [prepared?, hparse, hscan, hjournal, List.nil_append, hbind, if_true]
      | false =>
        have hnoreports := ((Journal.hadError_reportAll _ _).1 hbind).2
        have hprepared := @prepared_of_accepted interactive _ _ _ _ _ hs hscan hparse hnoreports hbound
        exact .executed _ (hstatic.trans hnoreports) hs hprepared (run_of_prepared hprepared)

section execute

variable {fuel : Nat} {interactive : Bool} {source : String} {s : Session} {ps ss : List Stmt} {f : Fault} {t : Store}

theorem execute_of_ok (h : runProgram .byDistance fuel ps s.store = .ok () t) :
    s.execute fuel ps = (.finished, { s with store := t }) := by
  rw [execute, h]

theorem execute_of_fault (h : runProgram .byDistance fuel ps s.store = .error (.fault f) t) :
    s.execute fuel ps = (.finished, ⟨s.journal.fault f.line f.cause.message, t⟩) := by
  rw [execute, h]

theorem execute_of_defect {d : Defect} (h : runProgram .byDistance fuel ps s.store = .error (.defect d) t) :
    s.execute fuel ps = (.defect d, { s with store := t }) := by
  rw [execute, h]

theorem execute_of_endless (h : runProgram .byDistance fuel ps s.store = .error .endless t) :
    s.execute fuel ps = (.endless, { s with store := t }) := by
  rw [execute, h]

theorem run_of_ok (hprepared : prepared? interactive source s.journal = some ss)
    (h : runProgram .byDistance fuel ss s.store = .ok () t) :
    s.run fuel interactive source = (.finished, { s with store := t }) :=
  (run_of_prepared hprepared).trans (execute_of_ok h)

theorem run_of_fault (hprepared : prepared? interactive source s.journal = some ss)
    (h : runProgram .byDistance fuel ss s.store = .error (.fault f) t) :
    s.run fuel interactive source = (.finished, ⟨s.journal.fault f.line f.cause.message, t⟩) :=
  (run_of_prepared hprepared).trans (execute_of_fault h)

end execute

theorem execution_mem (commands : List Command) {fuel : Nat} {interactive : Bool} {source : String}
    {s : Session} {ss : List Stmt}
    (h : prepared? interactive source (after commands s).journal = some ss) :
    ⟨(after commands s).store, fuel, ss⟩ ∈ executions (commands ++ [.run fuel interactive source]) s := by
  rw [executions_append]
  exact List.mem_append_right _ (by simp [executions, Command.execution?, h])

end Session

/-- However a session came about, a program text is read to its end and bound, its run finishes unless there
is no end to it, and a fault ends it with a message in the journal. -/
theorem run_finishes (clock : Clock) (commands : List Command) (fuel : Nat) (interactive : Bool)
    (source : String) :
    let s := Session.after commands { store := { clock := clock } }
    let read := parse (Token.scan source).1
    let prepared := Session.prepared? interactive source s.journal
    read.1.isSome = true ∧
    ((Token.scan source).2 = [] → read.2 = [] →
      ∃ program bound, read.1 = some program ∧ (bindProgram program).program = .ok bound) ∧
    ((s.run fuel interactive source).1 = .finished ∨
      (s.run fuel interactive source).1 = .endless ∧
        ∃ ss t, prepared = some ss ∧ runProgram .byDistance fuel ss s.store = .error .endless t) ∧
    ∀ ss f t, prepared = some ss → runProgram .byDistance fuel ss s.store = .error (.fault f) t →
      s.run fuel interactive source = (.finished, ⟨s.journal.fault f.line f.cause.message, t⟩) := by
  intro s read prepared
  obtain ⟨program, reports, hparse⟩ := parse_scan_some source
  refine ⟨by simp [read, hparse], fun _ hreports => ?_, ?_, fun ss f t hss hf => ?_⟩
  · obtain rfl : reports = [] := by simpa [read, hparse] using hreports
    obtain ⟨bound, hbound⟩ := bindProgram_ok hparse
    exact ⟨program, bound, by simp [read, hparse], hbound⟩
  · cases s.treated fuel interactive source with
    | rejected _ hrun | empty _ _ _ hrun => exact .inl (by rw [hrun])
    | executed ss _ _ hprepared hrun =>
      have hmem := @Session.execution_mem commands fuel interactive source _ _ hprepared
      rw [hrun, Session.execute]
      cases hresult : runProgram .byDistance fuel ss s.store with
      | ok _ t => exact .inl rfl
      | error e t =>
        cases e with
        | fault f => exact .inl rfl
        | defect d => exact absurd hresult (Session.executions_sound hmem d t)
        | endless => exact .inr ⟨rfl, ss, t, hprepared, hresult⟩
  · exact Session.run_of_fault hss hf

end LoxLang
