import LoxLang.Proofs.History.Follows
import LoxLang.Proofs.History.Rules
import LoxLang.Proofs.Running.Synchrony

namespace LoxLang

open Traced (world act)

section trace

variable {programs : List (List Stmt)} (h : ∀ program ∈ programs, ResolvedProgram program)
  {w : World} {chain : Chain}

include h

theorem marked_expr {Δ : Context} {e : Expr} {p : Traced Value} (he : Situated programs w chain (Δ, .expr e))
    (hp : ∀ v, w.Later v → Steady programs v chain (fun v a => a.Fits programs v) p) :
    Steady programs w chain (fun v a => a.Fits programs v) (Traced.marked (.expr e) (.gave e) p) := by
  refine .marked (fun ha hv => ha.mono hv) (fun x hx hs hc => ?_) (fun x a hs hc _ => ⟨rfl, ?_⟩) fun v hv _ => hp v hv
  · exact Situated.told h hs (hc ▸ he.mono hx)
  · exact hs.told_of_kept rfl (fun t s heq => nomatch heq) fun j s name d heq => nomatch heq

theorem marked_stmt {Δ : Context} {t : Stmt} {p : Traced Outcome} (ht : Situated programs w chain (Δ, .stmt t))
    (hp : ∀ v, w.Later v → (∃ s, .came (.stmt t) s ∈ v.history ∧ s.chain = chain) →
      Steady programs v chain (Ends programs t chain) p) :
    Steady programs w chain (Ends programs t chain) (Traced.marked (.stmt t) (.ended t) p) := by
  refine .marked (fun ho hv => ho.mono hv) (fun x hx hs hc => ?_) (fun x o hs hc ho => ⟨rfl, ?_⟩) hp
  · exact Situated.told h hs (hc ▸ ht.mono hx)
  · refine hs.told_of_kept rfl (fun t' s heq => ?_) fun j s name d heq => nomatch heq
    obtain ⟨rfl, ho', rfl⟩ := Moment.ended.inj heq
    rw [hc]
    exact ho.declared ho'

theorem trace_steady (n : Nat) : Tracer.Steady programs ⟨n, traceEval n, traceExec n⟩ := by
  induction n with
  | zero =>
    refine ⟨fun he => ?_, fun ht => ?_⟩
    · simp only [traceEval]
      exact marked_expr h he fun _ _ => .endless
    · simp only [traceExec]
      exact marked_stmt h ht fun _ _ _ => .endless
  | succ n ih =>
    refine ⟨fun he => ?_, fun ht => ?_⟩
    · simp only [traceEval]
      exact marked_expr h he fun _ hv => ih.evalRule (he.mono hv)
    · simp only [traceExec]
      exact marked_stmt h ht fun _ hv hbegun => ih.execRule h (ht.mono hv) hbegun

theorem traceProgram_steady {program : List Stmt} (hprogram : program ∈ programs) (n : Nat) {Γ : Context}
    {ss : List Stmt} (hglobal : Γ.levels = []) (hss : ∀ x ∈ Γ.sequence ss, Occurs program x.1 x.2)
    (htop : 0 < w.frames.size) : Steady programs w globals (fun _ _ => True) (traceProgram n ss) := by
  induction ss generalizing Γ w with
  | nil => exact .pure fun _ _ => trivial
  | cons t ts ih =>
    rw [Context.sequence, List.forall_mem_cons] at hss
    have ht : Situated programs w globals (Γ, .stmt t) := by
      refine ⟨program, hprogram, hss.1, ?_⟩
      change Covers w _ Γ.levels globals
      rw [hglobal]
      exact .root htop
    refine ((trace_steady h n).exec ht).bind fun v _ hv _ => ih (Γ := t.after Γ) ?_ hss.2 (Nat.lt_of_lt_of_le htop hv.size)
    have hscopes := congrArg List.length (Context.scopes_after t Γ)
    simpa [Context.scopes, hglobal] using hscopes

end trace

section session

variable {programs : List (List Stmt)} (h : ∀ program ∈ programs, ResolvedProgram program)

include h

theorem Execution.sound {x : Execution} {past : List Moment} (hs : Sound programs (x.store, past))
    (hchain : x.store.chain = globals) (hx : x.statements ∈ programs) :
    Sound programs (x.storeAfter, past ++ x.history) ∧ x.storeAfter.chain = globals := by
  have hsteady := traceProgram_steady h hx x.fuel (w := world (x.store, past)) (Γ := {}) rfl
    (fun y hy => Occurs.top hy) hs.top
  obtain ⟨hok, herror⟩ := hsteady (x.store, past) (.refl _) hs hchain
  unfold storeAfter
  cases hresult : x.result with
  | ok _ t =>
    obtain ⟨hkept, -⟩ := hok _ _ ((traced_eq x past).1 t hresult)
    exact ⟨hkept.sound, hkept.chain.trans hchain⟩
  | error e t =>
    have hkept := herror _ _ ((traced_eq x past).2 e t hresult)
    exact ⟨hkept.sound, hkept.chain.trans hchain⟩

theorem Session.sound_history (commands : List Command) {s : Session} {past : List Moment}
    (hs : Sound programs (s.store, past)) (hchain : s.store.chain = globals)
    (hall : ∀ x ∈ executions commands s, x.statements ∈ programs) :
    ∃ t, Sound programs (t, past ++ (executions commands s).flatMap Execution.history) := by
  obtain ⟨-, hsound, -⟩ := executions_keep (I := fun t past => Sound programs (t, past) ∧ t.chain = globals)
    Execution.history
    (fun hframes hlists hobjects hsame h => ⟨h.1.congr hframes hlists hobjects, hsame.trans h.2⟩)
    commands past ⟨hs, hchain⟩ fun x hx _ hx' => Execution.sound h hx'.1 hx'.2 (hall x hx)
  exact ⟨_, hsound⟩

end session

theorem Sound.initial (programs : List (List Stmt)) (clock : Clock) : Sound programs ({ clock := clock }, []) where
  top := by simp [Frames.size]
  frames f name v hv := by
    obtain ⟨n, rfl⟩ := Store.native_of_new hv
    exact .native n
  lists id v hv := by simp [Store.items] at hv
  fields id name v hv := by simp [Store.fields] at hv
  past m hm := nomatch hm
  told earlier m later heq := by simp at heq

/-- Tracing a run changes nothing in it. In the history of a whole session no frame loses a name, and a read finds its
name in its frame, unless the declaration has yet to give it an initial value. -/
theorem reads_initialized (clock : Clock) (commands : List Command) :
    let executions := Session.executions commands { store := { clock := clock } }
    (∀ x ∈ executions, ∀ past,
      (∀ t, x.result = .ok () t →
        traceProgram x.fuel x.statements (x.store, past) = .ok () (t, past ++ x.history)) ∧
      ∀ e t, x.result = .error e t →
        traceProgram x.fuel x.statements (x.store, past) = .error e (t, past ++ x.history)) ∧
    ∀ earlier m later, executions.flatMap Execution.history = earlier ++ m :: later →
      Told (executions.map Execution.statements) earlier m := by
  intro executions
  refine ⟨fun x _ past => Execution.traced_eq x past, fun earlier m later heq => ?_⟩
  have hresolved := Session.programs_resolved commands { store := { clock := clock } }
  have hstart : Sound (executions.map Execution.statements) (({ store := { clock := clock } } : Session).store, []) :=
    .initial _ clock
  obtain ⟨t, ht⟩ := Session.sound_history hresolved commands hstart rfl fun x hx => List.mem_map_of_mem hx
  exact ht.told earlier m later heq

end LoxLang
