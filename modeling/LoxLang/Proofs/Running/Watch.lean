import LoxLang.Proofs.Running.Distance

namespace LoxLang

section watch

variable {α : Type}

open Classical in
noncomputable def Exec.guarded (ok : Store → Prop) (trip : Stop) (p : Exec α) : Exec α :=
  fun s => if ok s then p s else .error trip s

noncomputable def Addressing.guarded (ok : Store → Prop) (trip : Stop) (a : Addressing) : Addressing where
  read name hops := Exec.guarded ok trip (a.read name hops)
  write name hops v := Exec.guarded ok trip (a.write name hops v)

variable (ok : Node → Store → Prop) (trip : Stop)

mutual

noncomputable def watchEval : Nat → Expr → Exec Value
  | 0, _ => Exec.endless
  | n + 1, e => Exec.guarded (ok (.expr e)) trip fun s =>
    Evaluator.evalRule ⟨Addressing.byDistance.guarded (ok (.expr e)) trip, n, watchEval n, watchExec n⟩ e s

noncomputable def watchExec : Nat → Stmt → Exec Outcome
  | 0, _ => Exec.endless
  | n + 1, t => Exec.guarded (ok (.stmt t)) trip fun s =>
    Evaluator.execRule ⟨Addressing.byDistance, n, watchEval n, watchExec n⟩ t s

end

noncomputable def watchProgram (fuel : Nat) : List Stmt → Exec Unit
  | [] => pure ()
  | t :: ts => do
    let _ ← watchExec ok trip fuel t
    watchProgram fuel ts

end watch

namespace Coupling

variable {C : Coupling} {w Γ : List C.Label}

theorem Runs.guarded {α β : Type} {P : List C.Label → α → β → Prop} {p : C.Oracle → Exec α} {p' : Exec β}
    {ok : C.Oracle → Store → Prop} (trip : C.Oracle → Stop)
    (hok : ∀ v s s' o, C.Stores v s s' → C.Chains v s.chain Γ → C.fits o v → ok o s)
    (hp : C.Runs w Γ P p p') : C.Runs w Γ P (fun o => Exec.guarded (ok o) (trip o) (p o)) p' := by
  intro v s s' hv hs hc
  obtain ⟨x, r, hx, hr, hagree⟩ := hp v s s' hv hs hc
  refine ⟨x, r, hx, fun o ho => ?_, hagree⟩
  rw [← hr o ho]
  exact if_pos (hok v s s' o hs hc (C.fits_mono hx ho))

def Watchable (C : Coupling) (ok : C.Oracle → Node → Store → Prop) : Prop :=
  ∀ {Γ j j' v s s' o}, C.pairs Γ j j' → C.Stores v s s' → C.Chains v s.chain Γ → C.fits o v → ok o j s

variable {ok : C.Oracle → Node → Store → Prop}

theorem Accesses.guarded {e e' : Expr} (trip : C.Oracle → Stop) (hok : C.Watchable ok)
    (hp : C.pairs Γ (.expr e) (.expr e'))
    (h : C.Accesses Γ (fun _ => Addressing.byDistance) Addressing.byDistance e e') :
    C.Accesses Γ (fun o => Addressing.byDistance.guarded (ok o (.expr e)) (trip o)) Addressing.byDistance
      e e' := by
  have hguard : ∀ v s s' o, C.Stores v s s' → C.Chains v s.chain Γ → C.fits o v → ok o (.expr e) s :=
    fun _ _ _ _ hs hc ho => hok hp hs hc ho
  cases C.alike hp with
  | ref => exact fun w => (h w).guarded trip hguard
  | self => exact fun w => (h w).guarded trip hguard
  | assign => exact fun w u u' hu => (h w u u' hu).guarded trip hguard
  | _ => trivial

theorem watch_lockstep (trip : C.Oracle → Stop) (hok : C.Watchable ok)
    (h : ∀ {Γ e e'}, C.pairs Γ (.expr e) (.expr e') →
      C.Accesses Γ (fun _ => Addressing.byDistance) Addressing.byDistance e e')
    (n : Nat) : ∀ a : C.Oracle → Addressing, 
      C.Lockstep (fun o => ⟨a o, n, watchEval (ok o) (trip o) n, watchExec (ok o) (trip o) n⟩)
        ⟨.byDistance, n, evaluate .byDistance n, execute .byDistance n⟩ := by
  induction n with
  | zero =>
    intro a
    refine ⟨fun _ => rfl, fun _ => ?_, fun _ => ?_⟩
    · simp only [evaluate, watchEval]
      exact .endless
    · simp only [execute, watchExec]
      exact .endless
  | succ n ih =>
    intro a
    refine ⟨fun _ => rfl, fun hp => ?_, fun hp => ?_⟩
    · simp only [evaluate, watchEval]
      apply Runs.guarded trip fun _ _ _ _ hs hc ho => hok hp hs hc ho
      exact (ih _).evalRule_runs hp (.guarded trip hok hp (h hp))
    · simp only [execute, watchExec]
      apply Runs.guarded trip fun _ _ _ _ hs hc ho => hok hp hs hc ho
      exact (ih _).execRule_runs hp

theorem watchProgram_runs (trip : C.Oracle → Stop) (hok : C.Watchable ok)
    (h : ∀ {Γ e e'}, C.pairs Γ (.expr e) (.expr e') →
      C.Accesses Γ (fun _ => Addressing.byDistance) Addressing.byDistance e e')
    (n : Nat) {ss ss' : List Stmt}
    (hss : List.Forall₂ (fun t t' => C.pairs [] (.stmt t) (.stmt t')) ss ss') :
    C.Runs w [] (fun _ _ _ => True) (fun o => watchProgram (ok o) (trip o) n ss)
      (runProgram .byDistance n ss') := by
  induction hss generalizing w with
  | nil => exact .pure fun _ _ => trivial
  | cons ht _ ih =>
    exact ((watch_lockstep trip hok h n fun _ => .byDistance).exec ht).bind fun _ _ _ _ _ => ih

end Coupling

end LoxLang
