import LoxLang.CommandLine
import LoxLang.Proofs.History.Follows
import LoxLang.Proofs.Sessions.Outcome
import LoxLang.Proofs.Tree.Equality

namespace LoxLang

theorem Journal.hadFault_reportAll (j : Journal) (rs : List Report) : (j.reportAll rs).hadFault = j.hadFault := by
  unfold reportAll
  induction rs generalizing j with
  | nil => rfl
  | cons r rs ih => exact ih _

namespace Session

/-- The run of a program text came to its end, without a message. -/
def Completed (fuel : Nat) (interactive : Bool) (source : String) (s : Session) : Prop :=
  let s' := (s.run fuel interactive source).2
  s'.journal = s.journal ∧ (prepared? interactive source s.journal = none → s'.store = s.store) ∧
    ∀ ss, prepared? interactive source s.journal = some ss →
      let x : Execution := ⟨s.store, fuel, ss⟩
      x.result = .ok () s'.store ∧ x.traced = .ok () (s'.store, x.history) ∧ ∀ m ∈ x.history, m.isStop = false

/-- The run of a program text was ended by a fault, with its message. After the fault nothing happened but
that the nodes around it stopped, the last of them a statement of the program. -/
def Faulted (fuel : Nat) (interactive : Bool) (source : String) (s : Session) : Prop :=
  let s' := (s.run fuel interactive source).2
  ∃ ss f, prepared? interactive source s.journal = some ss ∧
    s'.journal = s.journal.fault f.line f.cause.message ∧
    let x : Execution := ⟨s.store, fuel, ss⟩
    x.result = .error (.fault f) s'.store ∧ x.traced = .error (.fault f) (s'.store, x.history) ∧
      ∃ ran stops, ∃ t ∈ ss, x.history = ran ++ (stops ++ [.stopped (.stmt t) (.fault f) s'.store]) ∧
        (∀ m ∈ ran, m.isStop = false) ∧ ∀ m ∈ stops, m.isStop = true

/-- A session with a report runs nothing; without one it runs a text that has none, and a fault of that is the
only message. -/
structure Gated (fuel : Nat) (interactive : Bool) (source : String) (s : Session) : Prop where
  closed : (s.run fuel interactive source).2.journal.hadError = true →
    (s.run fuel interactive source).2.store = s.store
  opened : (s.run fuel interactive source).2.journal.hadError = false →
    s.journal.hadError = false ∧ staticReports source = [] ∧
      (s.Completed fuel interactive source ∨
        s.Faulted fuel interactive source ∧ (s.run fuel interactive source).2.journal.hadFault = true)

variable {fuel : Nat} {interactive : Bool} {source : String} {s : Session}

theorem completed_of_result {ss : List Stmt} {t : Store} (hprepared : prepared? interactive source s.journal = some ss)
    (h : runProgram .byDistance fuel ss s.store = .ok () t) : s.Completed fuel interactive source := by
  have hrun := run_of_ok hprepared h
  have hresult : Execution.result ⟨s.store, fuel, ss⟩ = .ok () t := h
  obtain ⟨hstops, htraced⟩ := Execution.traced_ok hresult
  unfold Completed
  rw [hrun]
  refine ⟨rfl, fun hnone => ?_, fun ss' hss' => ?_⟩
  · rw [hprepared] at hnone
    cases hnone
  · rw [hprepared] at hss'
    cases hss'
    exact ⟨h, htraced [], hstops⟩

theorem faulted_of_result {ss : List Stmt} {f : Fault} {t : Store}
    (hprepared : prepared? interactive source s.journal = some ss)
    (h : runProgram .byDistance fuel ss s.store = .error (.fault f) t) : s.Faulted fuel interactive source := by
  have hrun := run_of_fault hprepared h
  have hresult : Execution.result ⟨s.store, fuel, ss⟩ = .error (.fault f) t := h
  obtain ⟨hstops, htraced⟩ := Execution.traced_error hresult
  unfold Faulted
  rw [hrun]
  exact ⟨ss, f, hprepared, rfl, h, htraced [], hstops⟩

theorem hadError_execute (fuel : Nat) (ss : List Stmt) (s : Session) :
    (s.execute fuel ss).2.journal.hadError = s.journal.hadError := by
  unfold execute
  cases runProgram .byDistance fuel ss s.store with
  | ok _ t => rfl
  | error e t => cases e <;> rfl

theorem rejected_of_hadError (h : (s.run fuel interactive source).2.journal.hadError = true) :
    ∃ reports, s.run fuel interactive source = (.finished, s.report reports) ∧
      (s.journal.hadError = false → reports = staticReports source) := by
  cases s.treated fuel interactive source with
  | rejected reports hrun _ hreports => exact ⟨reports, hrun, hreports⟩
  | empty _ herror _ hrun =>
    rw [hrun, herror] at h
    cases h
  | executed ss _ herror _ hrun =>
    rw [hrun, hadError_execute, herror] at h
    cases h

theorem gated {clock : Clock} (commands : List Command)
    (hs : s = after commands { store := { clock := clock } })
    (hends : (s.run fuel interactive source).1 ≠ .endless) : s.Gated fuel interactive source := by
  refine ⟨fun htrue => ?_, fun hfalse => ?_⟩
  · obtain ⟨reports, hrun, -⟩ := rejected_of_hadError htrue
    rw [hrun]
    rfl
  cases s.treated fuel interactive source with
  | rejected reports hrun herror =>
    rw [hrun] at hfalse
    exact absurd (hfalse.symm.trans herror) Bool.false_ne_true
  | empty hstatic herror hprepared hrun =>
    refine ⟨herror, hstatic, .inl ?_⟩
    unfold Completed
    rw [hrun]
    refine ⟨rfl, fun _ => rfl, fun ss hss => ?_⟩
    rw [hprepared] at hss
    cases hss
  | executed ss hstatic herror hprepared hrun =>
    refine ⟨herror, hstatic, ?_⟩
    have hmem := @execution_mem commands fuel interactive source { store := { clock := clock } } ss
      (hs ▸ hprepared)
    rw [← hs] at hmem
    cases hresult : runProgram .byDistance fuel ss s.store with
    | ok _ t => exact .inl (completed_of_result hprepared hresult)
    | error e t =>
      cases e with
      | fault f =>
        refine .inr ⟨faulted_of_result hprepared hresult, ?_⟩
        rw [run_of_fault hprepared hresult]
        rfl
      | defect d => exact absurd hresult (executions_sound hmem d t)
      | endless =>
        rw [hrun, execute, hresult] at hends
        exact absurd rfl hends

/-- The exit code tells a rejected text from a faulted run and from one that completed. -/
theorem exitCode_of_new {clock : Clock} (hs : s = { store := { clock := clock } })
    (hends : (s.run fuel interactive source).1 ≠ .endless) :
    let s' := (s.run fuel interactive source).2
    ¬(s'.journal.hadError = true ∧ s'.journal.hadFault = true) ∧
      (s'.exitCode = 65 ↔ staticReports source ≠ []) ∧ (s'.exitCode = 65 → s'.store.printedText = "") ∧
      (s'.exitCode = 70 ↔ s.Faulted fuel interactive source) ∧
      (s'.exitCode = 0 ∨ s'.exitCode = 65 ∨ s'.exitCode = 70) := by
  intro s'
  have hgated := gated [] hs hends
  cases herror : s'.journal.hadError with
  | true =>
    obtain ⟨reports, hrun, hreports⟩ := rejected_of_hadError herror
    have hrun : s' = s.report reports := congrArg Prod.snd hrun
    have hreports : reports = staticReports source := hreports (by rw [hs])
    have hfault : s'.journal.hadFault = false := by
      rw [hrun, hs]
      exact Journal.hadFault_reportAll _ _
    have hsome : staticReports source ≠ [] := by
      rintro hnone
      rw [hrun, hreports, hnone, hs] at herror
      cases herror
    have hexit : s'.exitCode = 65 := by simp [exitCode, herror]
    have hprinted : s'.store.printedText = "" := by
      rw [hrun, hs]
      rfl
    refine ⟨by simp [hfault], by simp [hexit, hsome], fun _ => hprinted, ?_, .inr (.inl hexit)⟩
    rw [hexit]
    refine ⟨fun h => (by cases h), fun hfaulted => ?_⟩
    obtain ⟨ss, f, -, hjournal, -⟩ := hfaulted
    have hcontra : s'.journal.hadFault = true := by
      rw [show s'.journal = _ from hjournal]
      rfl
    exact absurd (hfault.symm.trans hcontra) Bool.false_ne_true
  | false =>
    obtain ⟨-, hstatic, hended⟩ := hgated.opened herror
    have hexit : s'.exitCode = if s'.journal.hadFault then 70 else 0 := by simp [exitCode, herror]
    have hfaulted : s'.journal.hadFault = true ↔ s.Faulted fuel interactive source := by
      constructor
      · intro hfault
        obtain ⟨hjournal, -⟩ | ⟨hfaulted, -⟩ := hended
        · rw [show s'.journal = _ from hjournal, hs] at hfault
          cases hfault
        · exact hfaulted
      · intro hfaulted
        obtain ⟨ss, f, -, hjournal, -⟩ := hfaulted
        rw [show s'.journal = _ from hjournal]
        rfl
    rw [← hfaulted, hexit, hstatic]
    cases s'.journal.hadFault <;> simp

end Session

/-- Only a text without a report runs, in a session without one, and a fault is the one message of a run and the
last that happens in it; so a script's exit code tells which of these it was. -/
theorem reports_gate_execution (clock : Clock) (commands : List Command) (fuel : Nat) (interactive : Bool)
    (source : String)
    (hends : ((Session.after commands { store := { clock := clock } }).run fuel interactive source).1 ≠ .endless) :
    (Session.after commands { store := { clock := clock } }).Gated fuel interactive source ∧
    ∀ n bytes script, Transcript.ofScript? n bytes { store := { clock := clock } } = some script →
      script.ending ≠ .endless → ∃ text, Text.decode? bytes = some text ∧
        let new : Session := { store := { clock := clock } }
        let journal := (new.run n false text).2.journal
        ¬(journal.hadError = true ∧ journal.hadFault = true) ∧
        (script.exit = 65 ↔ staticReports text ≠ []) ∧ (script.exit = 65 → script.out = "") ∧
        (script.exit = 70 ↔ new.Faulted n false text) ∧
        (script.exit = 0 ∨ script.exit = 65 ∨ script.exit = 70) := by
  refine ⟨Session.gated commands rfl hends, fun n bytes script hscript hend => ?_⟩
  unfold Transcript.ofScript? Session.script? at hscript
  simp only [Option.map_map, Option.map_eq_some_iff, Function.comp] at hscript
  obtain ⟨text, htext, rfl⟩ := hscript
  exact ⟨text, htext, Session.exitCode_of_new rfl hend⟩

section fault

def faultText : String := "print \"a\"; nil(); print \"c\";"

def faultTree : List Stmt :=
  [.print (.literal (.text "a")),
    .expression (.call (.literal .nil) ⟨.rightParen, ")", 1, none⟩ []),
    .print (.literal (.text "c"))]

theorem faultText_prepared : Session.prepared? false faultText {} = some faultTree := by
  have hscan : (Token.scan faultText).2 = [] := by decide +kernel
  have hread : parse (Token.scan faultText).1 = (some faultTree, []) := by decide +kernel
  exact @Session.prepared_of_accepted false faultText {} _ _ _ rfl hscan hread rfl rfl

theorem faultTree_runs (clock : Clock) : ∃ t,
    runProgram .byDistance 9 faultTree { clock := clock } = .error (.fault ⟨.notCallable, some 1⟩) t :=
  ⟨_, rfl⟩

theorem faultText_gated :
    let s : Session := { store := { clock := 0 } }
    ((Session.after [] s).run 9 false faultText).1 ≠ .endless ∧ s.Faulted 9 false faultText := by
  intro s
  obtain ⟨t, ht⟩ := faultTree_runs 0
  have hrun := @Session.run_of_fault 9 false faultText s faultTree _ t faultText_prepared ht
  have hends : ((Session.after [] s).run 9 false faultText).1 ≠ .endless := by
    change (s.run 9 false faultText).1 ≠ .endless
    rw [hrun]
    exact Ending.noConfusion
  have hgated := (reports_gate_execution 0 [] 9 false faultText hends).1
  change s.Gated 9 false faultText at hgated
  obtain ⟨-, -, ⟨hjournal, -⟩ | ⟨hfaulted, -⟩⟩ := hgated.opened (by rw [hrun]; rfl)
  · rw [hrun] at hjournal
    cases congrArg Journal.hadFault hjournal
  · exact ⟨hends, hfaulted⟩

end fault

end LoxLang
