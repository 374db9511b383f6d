import LoxLang.Proofs.Running.Runs

namespace LoxLang

theorem Exec.passes_succ (test : Exec Bool) (body : Exec Outcome) (step : Exec Unit) (n : Nat) :
    passes test body step (n + 1) = (do
      if ← test then
        match ← body with
        | .broken => pure .normal
        | .returned v => pure (.returned v)
        | .normal | .continued => do
          step
          passes test body step n
      else pure .normal) := by
  funext s
  simp only [passes, bind, EStateM.bind]
  cases test s with
  | error => rfl
  | ok go s₁ =>
    cases go with
    | false => rfl
    | true =>
      simp only [if_true, EStateM.bind]
      cases body s₁ with
      | error => rfl
      | ok o s₂ =>
        cases o with
        | broken | returned => rfl
        | normal | continued =>
          simp only [EStateM.bind]
          cases step s₂ <;> rfl

namespace Coupling

variable {C : Coupling} {w Γ : List C.Label}

inductive Outcomes (C : Coupling) (w : List C.Label) : Outcome → Outcome → Prop
  | normal : Outcomes C w .normal .normal
  | returned {a a' : Value} (ha : C.Values w a a') : Outcomes C w (.returned a) (.returned a')
  | broken : Outcomes C w .broken .broken
  | continued : Outcomes C w .continued .continued

theorem Outcomes.value {o o' : Outcome} (h : C.Outcomes w o o') : C.Values w o.value o'.value := by
  cases h with
  | returned ha => exact ha
  | _ => exact .nil

theorem value_runs {a a' : Value} (ha : C.Values w a a') :
    C.Runs w Γ C.Values (fun _ => pure a) (pure a') :=
  .pure fun _ hv => ha.mono hv

theorem Runs.of_acts {α β : Type} {line : Option Int} {post : List C.Label → α → β → Prop} {p : Exec α} {p' : Exec β}
    (h : ∀ v, w <+: v → Acts line line (C.Values v) (post v) p p') : C.Runs w Γ post (fun _ => p) p' := by
  intro v s s' hv hs _
  obtain ⟨l, l', c, hl, ⟨a, a', ha, hr, hr'⟩ | ⟨e, e', he, hr, hr'⟩⟩ := h v hv s s' hs.lists hs.clock
  · refine ⟨v, _, List.prefix_refl v, fun _ _ => hr, ?_⟩
    rw [hr']
    exact .ok ha { hs with lists := hl, clock := rfl } rfl
  · refine ⟨v, _, List.prefix_refl v, fun _ _ => hr, ?_⟩
    obtain rfl := he.eq
    rw [hr']
    refine .error ?_ { hs with lists := hl, clock := rfl } rfl
    cases he with
    | fault cause => exact C.allowed_fault _
    | endless => exact C.allowed_endless

theorem unary_runs (op : Token) {a a' : Value} (ha : C.Values w a a') :
    C.Runs w Γ C.Values (fun _ => a.unary op) (a'.unary op) :=
  .of_acts fun v hv => Acts.unary (Values.lookalike C v) rfl (ha.mono hv)

theorem binary_runs (op : Token) {a a' b b' : Value} (ha : C.Values w a a') (hb : C.Values w b b') :
    C.Runs w Γ C.Values (fun _ => Value.binary op a b) (Value.binary op a' b') :=
  .of_acts fun v hv => Acts.binary (Values.lookalike C v) rfl (ha.mono hv) (hb.mono hv)

theorem native_runs (n : Native) {as as' : List Value} (has : List.Forall₂ (C.Values w) as as')
    (hlen : as.length = n.arity) : C.Runs w Γ C.Values (fun _ => n.apply as) (n.apply as') :=
  .of_acts fun v hv => Acts.native (Values.lookalike C v) (has.imp fun _ _ ha => ha.mono hv) n hlen

theorem passes_runs {test : C.Oracle → Exec Bool} {test' : Exec Bool} {body : C.Oracle → Exec Outcome}
    {body' : Exec Outcome} {step : C.Oracle → Exec Unit} {step' : Exec Unit}
    (htest : C.Runs w Γ (fun _ x x' => x' = x) test test') (hbody : C.Runs w Γ C.Outcomes body body')
    (hstep : C.Runs w Γ (fun _ _ _ => True) step step') (n : Nat) :
    C.Runs w Γ C.Outcomes (fun o => Exec.passes (test o) (body o) (step o) n)
      (Exec.passes test' body' step' n) := by
  induction n generalizing w with
  | zero => exact .endless
  | succ n ih =>
    simp only [Exec.passes_succ]
    apply htest.bind
    rintro v _ go hv rfl
    cases go with
    | false => exact .pure fun _ _ => .normal
    | true =>
      apply (hbody.mono hv).bind
      intro x o o' hx ho
      have hnext := (hstep.mono (hv.trans hx)).bind fun y _ _ hy _ =>
        ih (htest.mono (hv.trans (hx.trans hy))) (hbody.mono (hv.trans (hx.trans hy)))
          (hstep.mono (hv.trans (hx.trans hy)))
      cases ho with
      | broken => exact .pure fun _ _ => .normal
      | returned ha => exact .pure fun _ hy => .returned (ha.mono hy)
      | normal => exact hnext
      | continued => exact hnext

end Coupling

end LoxLang
