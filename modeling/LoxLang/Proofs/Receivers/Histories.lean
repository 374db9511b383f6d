import LoxLang.Proofs.History.Initialized
import LoxLang.Proofs.Receivers.Rules

namespace LoxLang

open Traced (act)

theorem Moment.apt_endless (j : Node) (s : Store) (past : List Moment) : (Moment.stopped j .endless s).Apt past := by
  cases j with
  | expr e =>
    cases e with
    | self => exact .inl rfl
    | _ => trivial
  | _ => trivial

section trace

variable {x : Store × List Moment} {Δ : Context} {a : Option Value}

theorem Footing.came (hx : Footing Δ a x) {j : Node} (h : Safe (x.1, x.2 ++ [.came j x.1])) :
    Footing Δ a (x.1, x.2 ++ [.came j x.1]) := ⟨h, hx.aligned⟩

theorem marked_expr_loyal {e : Expr} {p : Traced Value} (hx : Footing Δ a x)
    (hhead : (sites x.2).head?.map (·.store.self?) = some a)
    (hp : ∀ y, Footing Δ a y → sites y.2 = { node := .expr e, store := x.1 } :: sites x.2 →
      Loyal y (fun z v => v.Known z.1.scene ∧ (sites z.2).tail = sites x.2 ∧ Given z.2 z.1 v e) p ∧
      ∀ z stop, p y = .error stop z → (Moment.stopped (.expr e) stop z.1).Apt z.2) :
    Loyal x (Gave e x) (Traced.marked (.expr e) (.gave e) p) := by
  have hcame : sites (x.2 ++ [.came (.expr e) x.1]) = { node := .expr e, store := x.1 } :: sites x.2 := sites_append _ _
  have hbegun : Begun x.1.scene x.1.self? (sites x.2) (.expr e) := by
    obtain ⟨site, hsite, hself⟩ := Option.map_eq_some_iff.1 hhead
    obtain ⟨outer, houter⟩ := List.head?_eq_some_iff.1 hsite
    exact .inside houter (.inl ⟨e, rfl⟩) (hx.self?.trans hself.symm)
  have hsafe := hx.safe.record (m := .came (.expr e) x.1) rfl hbegun
  refine .marked hx.safe hbegun (fun hsafe => (hp _ (hx.came hsafe) hcame).1) (fun y v _ => ?_)
    fun y stop => (hp _ (hx.came hsafe) hcame).2 y stop
  rintro ⟨hv, htail, hgiven⟩
  have hsites : sites (y.2 ++ [.gave e v y.1]) = Site.give v y.1 (sites x.2) := by
    rw [sites_append, Site.after, htail]
  exact ⟨rfl, hgiven, by rw [hsites]; exact Site.length_atCall _ _, hv, hsites, y.2, rfl⟩

theorem marked_stmt_loyal {t : Stmt} {p : Traced Outcome} (hx : Footing Δ a x)
    (hbegun : Begun x.1.scene a (sites x.2) (.stmt t))
    (hp : ∀ y, Footing Δ a y → y.1 = x.1 →
      sites y.2 = { node := .stmt t, store := x.1 } :: Site.enter a (sites x.2) →
      Loyal y (fun z o => o.value.Known z.1.scene ∧ (sites z.2).tail = Site.enter a (sites x.2) ∧
        (Moment.ended t o z.1).Apt z.2) p) :
    Loyal x (Did a x) (Traced.marked (.stmt t) (.ended t) p) := by
  have hcame : sites (x.2 ++ [.came (.stmt t) x.1]) =
      { node := .stmt t, store := x.1 } :: Site.enter a (sites x.2) := by
    rw [sites_append, Site.after, hx.self?]
  refine .marked hx.safe (hx.self? ▸ hbegun) (fun hsafe => hp _ (hx.came hsafe) rfl hcame) (fun y o _ => ?_)
    fun _ _ _ => trivial
  rintro ⟨ho, htail, hapt⟩
  have hsites : sites (y.2 ++ [.ended t o y.1]) = Site.enter a (sites x.2) := by
    rw [sites_append, Site.after, htail]
  exact ⟨rfl, hapt, by rw [hsites]; exact Site.length_atCall _ _, ho, hsites⟩

theorem trace_loyal (n : Nat) : Tracer.Loyal ⟨n, traceEval n, traceExec n⟩ := by
  induction n with
  | zero =>
    refine ⟨fun hx he hhead => ?_, fun hx ht hplain hbegun => ?_⟩
    · simp only [traceEval]
      refine marked_expr_loyal hx hhead fun y hy _ => ⟨.endless hy.safe, fun z stop hz => ?_⟩
      cases hz
      exact Moment.apt_endless _ _ _
    · simp only [traceExec]
      exact marked_stmt_loyal hx hbegun fun y hy _ _ => .endless hy.safe
  | succ n ih =>
    refine ⟨fun hx he hhead => ?_, fun hx ht hplain hbegun => ?_⟩
    · simp only [traceEval]
      exact marked_expr_loyal hx hhead fun y hy hsites =>
        ⟨ih.evalRule hy he hsites hx.self?, fun z stop => Tracer.Loyal.stopped hy he hsites hx.self?⟩
    · simp only [traceExec]
      refine marked_stmt_loyal hx hbegun fun y hy hstore hsites => ih.execRule hy ht ?_ hsites hx.self?
      rw [hstore]
      exact hplain

theorem traceProgram_loyal (n : Nat) {Γ : Context} {ss : List Stmt} (hx : Footing Γ none x) (hglobal : Γ.levels = [])
    (hplain : x.1.scene.Plain x.1.chain.frame) (hsites : sites x.2 = []) (hss : ∀ k ∈ Γ.sequence ss, Resolved k.1 k.2) :
    Loyal x (fun y _ => sites y.2 = []) (traceProgram n ss) := by
  induction ss generalizing Γ x with
  | nil => exact .pure hx.safe hsites
  | cons t ts ih =>
    rw [Context.sequence, List.forall_mem_cons] at hss
    refine ((trace_loyal n).exec hx hss.1 hplain (.top hsites rfl)).bind fun y o hy ho => ?_
    have hplain' : y.1.scene.Plain y.1.chain.frame := hy.chain ▸ hy.later.plain hplain
    have hnext := hx.onward hy
    refine ih (Γ := t.after Γ) ⟨hnext.safe, Context.aligned_after hnext.aligned hplain' (Resolved.declares_ne hss.1)⟩ ?_
      hplain' (by rw [ho.sites, hsites]; rfl) hss.2
    have hscopes := congrArg List.length (Context.scopes_after t Γ)
    simpa [Context.scopes, hglobal] using hscopes

end trace

structure Idle (x : Store × List Moment) : Prop where
  safe : Safe x
  chain : x.1.chain = globals
  sites : sites x.2 = []

theorem Execution.idle {x : Execution} {past : List Moment} (hx : Idle (x.store, past))
    (hresolved : ResolvedProgram x.statements) : Idle (x.storeAfter, past ++ x.history) := by
  have haligned : x.store.scene.Aligned [] x.store.chain none := by
    rw [hx.chain]
    exact .root hx.safe.top
  have hplain : x.store.scene.Plain x.store.chain.frame := by
    rw [hx.chain]
    exact hx.safe.top
  obtain ⟨hok, herror⟩ := traceProgram_loyal x.fuel (Γ := {}) ⟨hx.safe, haligned⟩ rfl hplain hx.sites hresolved
  have hidle : ∀ {s}, Onward (x.store, past) (s, past ++ x.history) → Idle (s, past ++ x.history) := by
    intro s h
    refine ⟨h.safe, h.chain.trans hx.chain, List.length_eq_zero_iff.1 ?_⟩
    rw [h.depth, hx.sites]
    rfl
  unfold storeAfter
  cases hresult : x.result with
  | ok _ s => exact hidle (hok _ _ ((traced_eq x past).1 s hresult)).1
  | error e s => exact hidle (herror _ _ ((traced_eq x past).2 e s hresult))

theorem Session.idle_history (commands : List Command) {s : Session} {past : List Moment} (hs : Idle (s.store, past))
    (hresolved : ∀ x ∈ executions commands s, ResolvedProgram x.statements) :
    ∃ t, Idle (t, past ++ (executions commands s).flatMap Execution.history) := by
  obtain ⟨-, hidle⟩ := executions_keep (I := fun t past => Idle (t, past)) Execution.history
    (fun hframes hlists hobjects hsame h => ⟨h.safe.congr hframes hlists hobjects, hsame.trans h.chain, h.sites⟩)
    commands past hs fun x hx _ hx' => Execution.idle hx' (hresolved x hx)
  exact ⟨_, hidle⟩

theorem Idle.initial (clock : Clock) : Idle ({ clock := clock }, []) where
  safe := {
    top := ⟨by simp [Store.scene, Frames.size], rfl⟩
    frames := fun f name v hv => by
      obtain ⟨n, rfl⟩ := Store.native_of_new hv
      exact .native n
    lists := fun id v hv => by simp [Store.items] at hv
    fields := fun id name v hv => by simp [Store.fields] at hv
    selves := fun f hf => by
      obtain _ | f := f
      · cases hf
      · simp [Frames.frame] at hf
    past := fun m hm => nomatch hm
    told := fun earlier m later heq => by simp at heq }
  chain := rfl
  sites := rfl

end LoxLang
