import LoxLang.Proofs.Reading.Shape
import LoxLang.Proofs.Tree.Binding
import LoxLang.Session

namespace LoxLang

inductive Command where
  | run (fuel : Nat) (interactive : Bool) (source : String)
  | reset
  | takeOutput
  | setClock (clock : Clock)

/-- Statements that run from a store on. -/
structure Execution where
  store : Store
  fuel : Nat
  statements : List Stmt

namespace Execution

def result (x : Execution) : EStateM.Result Stop Store Unit :=
  runProgram .byDistance x.fuel x.statements x.store

def storeAfter (x : Execution) : Store :=
  match x.result with
  | .ok _ s | .error _ s => s

end Execution

def Command.apply : Command → Session → Session
  | .run fuel interactive source, s => (s.run fuel interactive source).2
  | .reset, s => s.reset
  | .takeOutput, s => s.takeOutput.2
  | .setClock clock, s => { s with store := { s.store with clock := clock } }

namespace Session

def asRun (interactive : Bool) : List Stmt → List Stmt
  | [only] => [if interactive then only.echo else only]
  | ss => ss

/-- What a session with this journal runs of a program text, if it runs any of it: the statements of a
text without a report, in a session without one, with their scopes counted. -/
def prepared? (interactive : Bool) (source : String) (j : Journal) : Option (List Stmt) :=
  let read := parse (Token.scan source).1
  let j := (j.reportAll (Token.scan source).2).reportAll read.2
  match read.1 with
  | none | some [] => none
  | some (t :: ts) =>
    let bound := bindProgram (t :: ts)
    if (j.reportAll bound.reports).hadError then none
    else
      match bound.program with
      | .error _ => none
      | .ok ss => some (asRun interactive ss)

variable {fuel : Nat} {interactive : Bool} {source : String}

theorem prepared_of_accepted {j : Journal} {t : Stmt} {ts bound : List Stmt} (hj : j.hadError = false)
    (hscan : (Token.scan source).2 = []) (hread : parse (Token.scan source).1 = (some (t :: ts), []))
    (hreports : (bindProgram (t :: ts)).reports = []) (hbound : (bindProgram (t :: ts)).program = .ok bound) :
    prepared? interactive source j = some (asRun interactive bound) := by
  simp only [prepared?, hscan, hread, hreports, hbound, Journal.reportAll, List.foldl_nil, hj, Bool.false_eq_true,
    if_false]

theorem accepted_of_prepared {j : Journal} {ss : List Stmt} (h : prepared? interactive source j = some ss) :
    ∃ t ts bound, j.hadError = false ∧ (Token.scan source).2 = [] ∧
      parse (Token.scan source).1 = (some (t :: ts), []) ∧ (bindProgram (t :: ts)).reports = [] ∧
      (bindProgram (t :: ts)).program = .ok bound ∧ ss = asRun interactive bound := by
  unfold prepared? at h
  generalize hread : parse (Token.scan source).1 = read at h
  obtain ⟨_ | ⟨_ | ⟨t, ts⟩⟩, parsed⟩ := read
  · cases h
  · cases h
  simp only at h
  split at h
  · cases h
  rename_i hnone
  obtain ⟨hparsed, hreports⟩ := (Journal.hadError_reportAll _ _).1 (Bool.eq_false_iff.2 hnone)
  obtain ⟨hscanned, rfl⟩ := (Journal.hadError_reportAll _ _).1 hparsed
  obtain ⟨hj, hscan⟩ := (Journal.hadError_reportAll _ _).1 hscanned
  cases hbound : (bindProgram (t :: ts)).program with
  | error d => simp [hbound] at h
  | ok bound =>
    simp only [hbound, Option.some.injEq] at h
    exact ⟨t, ts, bound, hj, hscan, rfl, hreports, hbound, h.symm⟩

theorem bindAndExecute_of_hadError {s : Session} (ss : List Stmt)
    (h : (s.report (bindProgram ss).reports).journal.hadError = true) :
    (s.bindAndExecute fuel interactive ss).2.store = s.store := by
  unfold bindAndExecute
  cases hbound : (bindProgram ss).program with
  | error d => simp only [hbound, report]
  | ok bound =>
    simp only [hbound, h, if_true]
    rfl

theorem bindAndExecute_of_error {s : Session} {ss : List Stmt} {d : Defect}
    (hd : (bindProgram ss).program = .error d) :
    (s.bindAndExecute fuel interactive ss).2.store = s.store := by
  unfold bindAndExecute
  simp only [hd]
  rfl

theorem bindAndExecute_of_ok {s : Session} {ss bound : List Stmt}
    (h : (s.report (bindProgram ss).reports).journal.hadError = false)
    (hbound : (bindProgram ss).program = .ok bound) :
    s.bindAndExecute fuel interactive ss =
      (s.report (bindProgram ss).reports).execute fuel (asRun interactive bound) := by
  unfold bindAndExecute
  simp only [hbound, h, Bool.false_eq_true, if_false]
  obtain _ | ⟨t, _ | ⟨u, us⟩⟩ := bound <;> cases interactive <;> rfl

theorem run_of_prepared {s : Session} {ss : List Stmt}
    (h : prepared? interactive source s.journal = some ss) :
    s.run fuel interactive source = s.execute fuel ss := by
  obtain ⟨t, ts, bound, hj, hscan, hread, hreports, hbound, rfl⟩ := accepted_of_prepared h
  have hsame : s.report [] = s := rfl
  have hexecute := @bindAndExecute_of_ok fuel interactive s (t :: ts) bound (by rw [hreports]; exact hj) hbound
  rw [hreports, hsame] at hexecute
  unfold run
  simp only [hread, hscan, hsame, hj, Bool.false_eq_true, if_false, hexecute]

theorem run_of_not_prepared {s : Session} (h : prepared? interactive source s.journal = none) :
    (s.run fuel interactive source).2.store = s.store := by
  unfold prepared? at h
  unfold run
  generalize Token.scan source = tokens at h ⊢
  obtain ⟨tokens, scanned⟩ := tokens
  simp only at h ⊢
  generalize parse tokens = read at h ⊢
  obtain ⟨_ | ⟨_ | ⟨t, ts⟩⟩, parsed⟩ := read
  · rfl
  · rfl
  · simp only at h ⊢
    split
    · rfl
    split at h
    · rename_i hreports
      exact bindAndExecute_of_hadError _ hreports
    · cases hbound : (bindProgram (t :: ts)).program with
      | error d => exact bindAndExecute_of_error hbound
      | ok bound => simp [hbound] at h

theorem resolved_echo {only : Stmt} (h : ResolvedProgram [only]) : ResolvedProgram [only.echo] := by
  cases only with
  | expression e =>
    intro x hx
    obtain rfl := List.mem_singleton.1 hx
    have he := h _ (List.mem_singleton.2 rfl)
    rw [resolved_iff] at he ⊢
    exact he
  | _ => exact h

theorem resolved_asRun {ss : List Stmt} (h : ResolvedProgram ss) : ResolvedProgram (asRun interactive ss) := by
  obtain _ | ⟨t, _ | ⟨u, us⟩⟩ := ss
  · exact h
  · cases interactive with
    | false => exact h
    | true => exact resolved_echo h
  · exact h

theorem prepared_resolved {j : Journal} {ss : List Stmt}
    (h : prepared? interactive source j = some ss) : ResolvedProgram ss := by
  obtain ⟨t, ts, bound, -, -, hread, hreports, hbound, rfl⟩ := accepted_of_prepared h
  obtain ⟨bound', hok, hresolved, -⟩ := bindProgram_spec (parse_scan_plain hread)
  cases hbound.symm.trans hok
  exact resolved_asRun (hresolved.1 hreports)

end Session

/-- What a command has a session execute, if anything. -/
def Command.execution? : Command → Session → Option Execution
  | .run fuel interactive source, s =>
    (Session.prepared? interactive source s.journal).map fun ss => ⟨s.store, fuel, ss⟩
  | _, _ => none

/-- All that a session executes under some commands, in order. -/
def Session.executions : List Command → Session → List Execution
  | [], _ => []
  | c :: cs, s => (c.execution? s).toList ++ executions cs (c.apply s)

def Session.after (commands : List Command) (s : Session) : Session := commands.foldl (fun s c => c.apply s) s

theorem Command.apply_of_none {c : Command} {s : Session} (h : c.execution? s = none) :
    (c.apply s).store.frames = s.store.frames ∧ (c.apply s).store.lists = s.store.lists ∧
      (c.apply s).store.objects = s.store.objects ∧ (c.apply s).store.chain = s.store.chain := by
  cases c with
  | run fuel interactive source =>
    have hprepared : Session.prepared? interactive source s.journal = none := by
      simpa [Command.execution?] using h
    rw [Command.apply, Session.run_of_not_prepared hprepared]
    exact ⟨rfl, rfl, rfl, rfl⟩
  | _ => exact ⟨rfl, rfl, rfl, rfl⟩

theorem Session.storeAfter_execute (fuel : Nat) (ss : List Stmt) (s : Session) :
    (s.execute fuel ss).2.store = Execution.storeAfter ⟨s.store, fuel, ss⟩ := by
  unfold Session.execute Execution.storeAfter Execution.result
  cases runProgram .byDistance fuel ss s.store with
  | ok _ t => rfl
  | error e t => cases e <;> rfl

theorem Command.apply_of_some {c : Command} {s : Session} {x : Execution} (h : c.execution? s = some x) :
    x.store = s.store ∧ (c.apply s).store = x.storeAfter := by
  cases c with
  | run fuel interactive source =>
    obtain ⟨ss, hprepared, rfl⟩ := Option.map_eq_some_iff.1 h
    refine ⟨rfl, ?_⟩
    rw [Command.apply, Session.run_of_prepared hprepared, Session.storeAfter_execute]
  | _ => cases h

namespace Session

variable {β : Type}

/-- What holds of a store and of a record of nothing holds, with all that is recorded before, wherever a program of the
session starts, and at the end: a command that executes nothing keeps the frames, lists and objects and the chain, and
each execution keeps what holds, with its own record behind the others. -/
theorem executions_keep {I : Store → List β → Prop} (record : Execution → List β)
    (hsame : ∀ {s t past}, t.frames = s.frames → t.lists = s.lists → t.objects = s.objects → t.chain = s.chain →
      I s past → I t past)
    (commands : List Command) {s : Session} (past : List β) (hs : I s.store past)
    (hrun : ∀ x ∈ executions commands s, ∀ past, I x.store past → I x.storeAfter (past ++ record x)) :
    (∀ x ∈ executions commands s, ∃ past, I x.store past) ∧
      I (after commands s).store (past ++ (executions commands s).flatMap record) := by
  induction commands generalizing s past with
  | nil => exact ⟨nofun, by simpa [executions, after] using hs⟩
  | cons c cs ih =>
    cases hc : c.execution? s with
    | none =>
      obtain ⟨hframes, hlists, hobjects, hchain⟩ := Command.apply_of_none hc
      simp only [executions, hc, Option.toList_none, List.nil_append] at hrun ⊢
      exact ih past (hsame hframes hlists hobjects hchain hs) hrun
    | some x =>
      obtain ⟨hstore, hafter⟩ := Command.apply_of_some hc
      simp only [executions, hc, Option.toList_some, List.singleton_append, List.forall_mem_cons,
        List.flatMap_cons] at hrun ⊢
      have hx : I x.store past := hstore ▸ hs
      obtain ⟨hlater, hend⟩ := ih _ (hafter ▸ hrun.1 past hx) hrun.2
      exact ⟨⟨⟨past, hx⟩, hlater⟩, by rwa [List.append_assoc] at hend⟩

theorem stores_keep {I : Store → Prop}
    (hsame : ∀ {s t}, t.frames = s.frames → t.lists = s.lists → t.objects = s.objects → t.chain = s.chain → I s → I t)
    (commands : List Command) {s : Session} (hs : I s.store)
    (hrun : ∀ x ∈ executions commands s, I x.store → I x.storeAfter) :
    (∀ x ∈ executions commands s, I x.store) ∧ I (after commands s).store := by
  obtain ⟨hstarts, hend⟩ := executions_keep (I := fun t (_ : List Unit) => I t) (fun _ => []) hsame commands [] hs
    fun x hx _ => hrun x hx
  refine ⟨fun x hx => ?_, hend⟩
  obtain ⟨-, hx⟩ := hstarts x hx
  exact hx

end Session

end LoxLang
