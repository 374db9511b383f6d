import LoxLang.Proofs.Lines.Running
import LoxLang.Proofs.Running.Bound
import LoxLang.Proofs.Sessions.Accepted
import LoxLang.Proofs.Tree.Equality

namespace LoxLang

theorem Stmt.echo_reline (f : Int → Int) (t : Stmt) : (t.reline f).echo = t.echo.reline f := by
  cases t with
  | varDecl name initial => cases initial <;> rfl
  | ifThen c y no => cases no <;> rfl
  | whileLoop c b step => cases step <;> rfl
  | ret keyword value => cases value <;> rfl
  | _ => rfl

theorem runProgram_append (a : Addressing) (fuel : Nat) (ts us : List Stmt) {s t : Store}
    (h : runProgram a fuel ts s = .ok () t) : runProgram a fuel (ts ++ us) s = runProgram a fuel us t := by
  induction ts generalizing s with
  | nil =>
    cases h
    rfl
  | cons u ts ih =>
    cases hu : execute a fuel u s with
    | ok o s' =>
      rw [runProgram, Stopping.bind_ok hu] at h
      rw [List.cons_append, runProgram, Stopping.bind_ok hu]
      exact ih h
    | error e s' =>
      rw [runProgram, Stopping.bind_error hu] at h
      cases h

namespace Session

variable {f : Int → Int} {fuel : Nat} {interactive : Bool} {source : String} {ps : List Stmt} {s : Session}

theorem asRun_reline (hps : ps.map (Stmt.reline f) = ps) :
    (asRun interactive ps).map (Stmt.reline f) = asRun interactive ps := by
  obtain _ | ⟨t, _ | ⟨u, us⟩⟩ := ps
  · exact hps
  · have ht : t.reline f = t := (List.cons.inj hps).1
    cases interactive with
    | false => exact hps
    | true => exact congrArg (fun t => [t]) ((t.echo_reline f).symm.trans (congrArg Stmt.echo ht))
  · exact hps

theorem prepared_reline {j : Journal} (hf : ∀ n, 1 ≤ n → f n = n) (h : prepared? interactive source j = some ps) :
    ps.map (Stmt.reline f) = ps := by
  obtain ⟨bound, haccepted, rfl⟩ := Accepted.of_prepared h
  exact asRun_reline (haccepted.reline_self hf)

theorem execute_reline (hps : ps.map (Stmt.reline f) = ps) (hs : s.store.reline f = s.store) :
    (s.execute fuel ps).2.store.reline f = (s.execute fuel ps).2.store := by
  have hrun := runProgram_reline f fuel ps s.store
  rw [hps, hs] at hrun
  rw [storeAfter_execute, Execution.storeAfter, Execution.result]
  cases hresult : runProgram .byDistance fuel ps s.store with
  | ok a t =>
    rw [hresult] at hrun
    exact (EStateM.Result.ok.inj hrun).2.symm
  | error e t =>
    rw [hresult] at hrun
    exact (EStateM.Result.error.inj hrun).2.symm

theorem store_reline (hf : ∀ n, 1 ≤ n → f n = n) (commands : List Command) (hs : s.store.reline f = s.store) :
    (after commands s).store.reline f = (after commands s).store := by
  unfold after
  induction commands generalizing s with
  | nil => exact hs
  | cons c cs ih =>
    refine ih ?_
    cases c with
    | run fuel interactive source =>
      change (s.run fuel interactive source).2.store.reline f = (s.run fuel interactive source).2.store
      cases hprepared : prepared? interactive source s.journal with
      | none =>
        rw [run_of_not_prepared hprepared]
        exact hs
      | some ss =>
        rw [run_of_prepared hprepared]
        exact execute_reline (prepared_reline hf hprepared) hs
    | reset => exact hs
    | takeOutput => exact congrArg (fun t : Store => { t with printed := #[] }) hs
    | setClock clock => exact congrArg (fun t : Store => { t with clock := clock }) hs

theorem globalTexts_reline (f : Int → Int) (j : Journal) (t : Store) :
    globalTexts ⟨j, t.reline f⟩ = globalTexts { store := t } := by
  refine (Value.lookalike_reline f).globalTexts_eq ?_ (Slots.map_map_iff.2 rfl) _ _
  rw [Store.frames_reline, Frames.frame_map]
  exact List.forall₂_map_right_iff.2 (List.forall₂_same.2 fun _ _ => ⟨rfl, rfl⟩)

end Session

/-- A fault so many lines further down, if its line is one of the text that moves. -/
def Fault.down (own : Bool) (n : Nat) (x : Fault) : Fault := ⟨x.cause, if own then x.line.map (· + (n : Int)) else x.line⟩

/-- The journal after a run that a fault ended, or none. -/
def Journal.ended (j : Journal) : Option Fault → Journal
  | none => j
  | some x => j.fault x.line x.cause.message

/-- Two runs from a journal that differ in nothing that they print or leave; but a fault that ends them is so many
lines further down in the second if its line is one of the text that moves. -/
structure Session.SameButLines (j : Journal) (fault : Option Fault) (own : Bool) (n : Nat) (x y : Ending × Session) :
    Prop where
  ending : y.1 = x.1
  printed : y.2.store.printed = x.2.store.printed
  globals : y.2.globalTexts = x.2.globalTexts
  journal : x.2.journal = j.ended fault
  moved : y.2.journal = j.ended (fault.map (Fault.down own n))

/-- The line so many lines down of a line that is marked, by its sign, as one of the text that moves. -/
def lineDown (n : Nat) (line : Int) : Int := if line < 0 then -line + n else line

theorem lineDown_neg (n : Nat) {line : Int} (h : 1 ≤ line) : lineDown n (-line) = line + n := by
  rw [lineDown, if_pos (by omega), Int.neg_neg]

theorem lineDown_of_pos (n : Nat) {line : Int} (h : 1 ≤ line) : lineDown n line = line := if_neg (by omega)

theorem Fault.down_reline (n : Nat) (x : Fault) :
    (x.reline (lineDown 0)).down (x.line.any (· < 0)) n = x.reline (lineDown n) := by
  obtain ⟨cause, _ | line⟩ := x
  · rfl
  · by_cases h : line < 0 <;> simp [Fault.reline, Fault.down, lineDown, h]

namespace Session

variable {fuel : Nat} {q : String} {ps qs : List Stmt} {s s₁ : Session}

theorem SameButLines.of_stores (j : Journal) (n : Nat) (ending : Ending) (f g : Int → Int) (t : Store) :
    SameButLines j none false n (ending, ⟨j, t.reline f⟩) (ending, ⟨j, t.reline g⟩) where
  ending := rfl
  printed := (t.printed_reline g).trans (t.printed_reline f).symm
  globals := (globalTexts_reline g j t).trans (globalTexts_reline f j t).symm
  journal := rfl
  moved := rfl

/-- A program does the same so many lines down, from a store on whose lines it does not stand. One run tells for all
of these numbers: that with the lines of the program negative, and those of the store not. -/
theorem execute_moved (hq : Accepted q qs) (hs : ∀ f : Int → Int, (∀ n, 1 ≤ n → f n = n) → s.store.reline f = s.store)
    (fuel : Nat) : ∃ fault own, ∀ n : Nat,
      SameButLines s.journal fault own n (s.execute fuel qs) (s.execute fuel (qs.map (Stmt.reline (· + n)))) := by
  let marked := qs.map (Stmt.reline (- ·))
  have hmoved : ∀ n : Nat, runProgram .byDistance fuel (qs.map (Stmt.reline (· + n))) s.store =
      Stopping.image (Store.reline (lineDown n)) (Stop.reline (lineDown n)) id
        (runProgram .byDistance fuel marked s.store) := by
    intro n
    have hrun := runProgram_reline (lineDown n) fuel marked s.store
    rw [hs _ fun _ h => lineDown_of_pos n h, hq.reline_reline fun _ h => lineDown_neg n h] at hrun
    exact hrun
  have hzero : qs.map (Stmt.reline (· + (0 : Nat))) = qs := hq.reline_self fun n _ => Int.add_zero n
  have hnow := hmoved 0
  rw [hzero] at hnow
  cases hresult : runProgram .byDistance fuel marked s.store with
  | ok a t =>
    rw [hresult] at hnow hmoved
    refine ⟨none, false, fun n => ?_⟩
    rw [execute_of_ok hnow, execute_of_ok (hmoved n)]
    exact .of_stores s.journal n .finished _ _ t
  | error e t =>
    rw [hresult] at hnow hmoved
    cases e with
    | fault x =>
      refine ⟨some (x.reline (lineDown 0)), x.line.any (· < 0), fun n => ?_⟩
      rw [execute_of_fault hnow, execute_of_fault (hmoved n)]
      refine ⟨rfl, (t.printed_reline _).trans (t.printed_reline _).symm,
        (globalTexts_reline _ _ t).trans (globalTexts_reline _ _ t).symm, rfl, ?_⟩
      rw [Option.map_some, Fault.down_reline]
      rfl
    | defect d =>
      refine ⟨none, false, fun n => ?_⟩
      rw [execute_of_defect hnow, execute_of_defect (hmoved n)]
      exact .of_stores s.journal n (.defect d) _ _ t
    | endless =>
      refine ⟨none, false, fun n => ?_⟩
      rw [execute_of_endless hnow, execute_of_endless (hmoved n)]
      exact .of_stores s.journal n .endless _ _ t

theorem completed_of_execute (h : s.execute fuel ps = (.finished, s₁)) (hj : s₁.journal = s.journal) :
    runProgram .byDistance fuel ps s.store = .ok () s₁.store ∧ s₁ = { s with store := s₁.store } := by
  unfold execute at h
  cases hresult : runProgram .byDistance fuel ps s.store with
  | ok a t =>
    rw [hresult] at h
    cases h
    exact ⟨rfl, rfl⟩
  | error e t =>
    rw [hresult] at h
    cases e with
    | fault x =>
      cases h
      have hlength := congrArg (fun j : Journal => j.messages.length) hj
      simp [Journal.fault, Journal.write] at hlength
    | defect | endless => cases congrArg Prod.fst h

theorem execute_append (h : s.execute fuel ps = (.finished, s₁)) (hj : s₁.journal = s.journal) (qs : List Stmt) :
    s.execute fuel (ps ++ qs) = s₁.execute fuel qs := by
  obtain ⟨hrun, hs₁⟩ := completed_of_execute h hj
  rw [execute, runProgram_append _ _ _ _ hrun, hs₁]
  rfl

end Session

/-- Two accepted texts with a newline between them are an accepted text. From a session without a report, it does
what the texts do one after the other if the first completes, with the lines of the second text further down by the
lines of the first. A line of a fault is one of the second text when it moves with that text. -/
theorem runs_join (clock : Clock) (commands : List Command) (p q : String)
    (herror : (Session.after commands { store := { clock := clock } }).journal.hadError = false)
    (hp : staticReports p = []) (hq : staticReports q = []) :
    let s := Session.after commands { store := { clock := clock } }
    staticReports (p ++ "\n" ++ q) = [] ∧
    ∀ n s₁, s.run n false p = (.finished, s₁) → s₁.journal = s.journal →
      ∀ m l, n ≤ l → m ≤ l → m = l ∨ (s₁.run m false q).1 ≠ .endless →
        ∃ fault own, Session.SameButLines s.journal fault own (Token.linesOf p) (s₁.run m false q)
            (s.run l false (p ++ "\n" ++ q)) ∧
          ∀ i, Session.SameButLines s.journal fault own i (s₁.run m false q)
            (s₁.run l false (String.ofList (List.replicate i '\n') ++ q)) := by
  intro s
  obtain ⟨ps, hps⟩ := staticReports_eq_nil_iff.1 hp
  obtain ⟨qs, hqs⟩ := staticReports_eq_nil_iff.1 hq
  have hjoin := hps.join hqs
  refine ⟨staticReports_eq_nil_iff.2 ⟨_, hjoin⟩, fun n s₁ hrun hj m l hn hm hends => ?_⟩
  have herror₁ : s₁.journal.hadError = false := hj ▸ herror
  have hstore : ∀ f : Int → Int, (∀ n, 1 ≤ n → f n = n) → s₁.store.reline f = s₁.store := by
    intro f hf
    have h := @Session.store_reline f { store := { clock := clock } } hf (commands ++ [.run n false p])
      (Store.reline_initial f clock)
    have hafter : (Session.after (commands ++ [.run n false p]) { store := { clock := clock } }).store = s₁.store := by
      rw [Session.after, List.foldl_append]
      exact congrArg (fun x : Ending × Session => x.2.store) hrun
    rwa [hafter] at h
  rw [hps.run herror] at hrun
  have hfirst : s.execute l ps = (.finished, s₁) := by
    rw [Session.execute_mono hn (by rw [hrun]; exact Ending.noConfusion), hrun]
  have hsecond : s₁.run m false q = s₁.execute l qs := by
    rw [hqs.run herror₁] at hends ⊢
    obtain rfl | hends := hends
    · rfl
    · exact (Session.execute_mono hm hends).symm
  obtain ⟨fault, own, hown⟩ := Session.execute_moved hqs hstore l
  rw [hj] at hown
  refine ⟨fault, own, ?_, fun i => ?_⟩
  · rw [hsecond, hjoin.run herror, Session.execute_append hfirst hj]
    exact hown _
  · rw [hsecond, (hqs.newlines i).run herror₁]
    exact hown i

section example_texts

def declaringText : String := "var a;"

def callingText : String := "a();"

def declaringTree : List Stmt := [.varDecl ⟨.identifier, "a", 1, none⟩ none]

def callingTree : List Stmt :=
  [.expression (.call (.ref ⟨.identifier, "a", 1, none⟩ none) ⟨.rightParen, ")", 1, none⟩ [])]

theorem declaringText_accepted : Accepted declaringText declaringTree :=
  ⟨by decide +kernel, declaringTree, by decide +kernel, rfl, rfl⟩

theorem callingText_accepted : Accepted callingText callingTree :=
  ⟨by decide +kernel, callingTree, by decide +kernel, rfl, rfl⟩

theorem callingText_joined : ∃ fault own s₁,
    let s : Session := { store := { clock := 0 } }
    s.run 9 false declaringText = (.finished, s₁) ∧
      Session.SameButLines s.journal fault own 1 (s₁.run 9 false callingText)
        (s.run 9 false (declaringText ++ "\n" ++ callingText)) := by
  let s : Session := { store := { clock := 0 } }
  obtain ⟨t, ht⟩ : ∃ t, runProgram .byDistance 9 declaringTree s.store = .ok () t := ⟨_, rfl⟩
  have hrun : s.run 9 false declaringText = (.finished, { s with store := t }) :=
    (declaringText_accepted.run rfl 9).trans (Session.execute_of_ok ht)
  obtain ⟨-, hjoin⟩ := runs_join 0 [] declaringText callingText rfl
    (staticReports_eq_nil_iff.2 ⟨_, declaringText_accepted⟩) (staticReports_eq_nil_iff.2 ⟨_, callingText_accepted⟩)
  obtain ⟨fault, own, hsame, -⟩ := hjoin 9 _ hrun rfl 9 9 (Nat.le_refl 9) (Nat.le_refl 9) (.inl rfl)
  exact ⟨fault, own, _, hrun, hsame⟩

end example_texts

end LoxLang
