import LoxLang.Proofs.Receivers.Histories

namespace LoxLang

/-- A function that was fetched from an object, as its method of a name. -/
def MethodOf (past : List Moment) (a : Value) (name : Token) (v : Value) : Prop :=
  ∃ earlier o s s' later, past = earlier ++ .gave o a s :: .gave (.property o name) v s' :: later ∧
    ∀ id c, a = .object id c → (s.fields id).find? name.lexeme = none

/-- A function is made at a moment. -/
def Moment.Makes (v : Value) : Moment → Prop
  | .gave (.function _) u _ => u = v
  | .ended (.funDecl name _) .normal s => (s.frames.frame s.chain.frame).find? name.lexeme = some v
  | _ => False

/-- A function in which `this` is the object. It was fetched from the object, or made while the body of such a
function runs, or that of the initializer of the object's class as that makes the object. -/
inductive Carries (past : List Moment) (a : Value) : Value → Prop
  | method {name : Token} {v : Value} (h : MethodOf past a name v) : Carries past a v
  | nested {earlier later : List Moment} {m : Moment} {call : Site} {u v : Value} (hpast : past = earlier ++ m :: later)
    (hmade : m.Makes v) (hcall : running? (sites earlier) = some call) (hcallee : call.callee = some u)
    (hu : Carries past a u) : Carries past a v
  | initial {earlier later : List Moment} {m : Moment} {call : Site} {i : Nat} {c : Class} {v : Value}
    (hpast : past = earlier ++ m :: later) (hmade : m.Makes v) (hcall : running? (sites earlier) = some call)
    (hcallee : call.callee = some (.classDef i c)) (hself : call.self = some a) : Carries past a v

/-- A call with the object as its receiver. -/
inductive Site.For (past : List Moment) (a : Value) (call : Site) : Prop
  | function {u : Value} (hcallee : call.callee = some u) (hu : Carries past a u)
  | classDef {i : Nat} {c : Class} (hcallee : call.callee = some (.classDef i c)) (hself : call.self = some a)

/-- What is true of a moment after what happened before. -/
structure Fixed (past : List Moment) (m : Moment) : Prop where
  alone : ∀ f, (m.store.frames.frame f).contains selfName = true →
    ∃ id c, m.store.frames.frame f = ⟨[(selfName, .object id c)]⟩
  kept : ∀ m' ∈ past, m'.store.scene.Later m.store.scene
  fetched : ∀ o name v s, m = .gave (.property o name) v s →
    ∃ earlier a s', past = earlier ++ [.gave o a s'] ∧ Fetched a name s' s v
  mentioned : ∀ keyword hops v s, m = .gave (.self keyword hops) v s →
    ∃ call, running? (sites past) = some call ∧ call.self = some v ∧ (∀ a, call.For past a → v = a) ∧
      ∀ i c, call.callee = some (.classDef i c) → ∃ id, v = .object id c ∧ call.ready.objects.size ≤ id
  stopped : ∀ keyword hops stop s call a, m = .stopped (.expr (.self keyword hops)) stop s →
    running? (sites past) = some call → call.For past a → stop = .endless
  called : ∀ f paren args v s, m = .gave (.call f paren args) v s → ∃ call outer, sites past = call :: outer ∧
    call.node = .expr (.call f paren args) ∧
    (∀ i c, call.callee = some (.classDef i c) → ∃ id, v = .object id c ∧ ¬ call.ready.Present id ∧
      call.ready.objects.size ≤ id ∧ id < s.objects.size ∧ ∀ a, call.self = some a → v = a) ∧
    ∀ a name u, call.callee = some u → MethodOf past a name u → name.lexeme = initializerName → v = a

theorem Moment.Makes.madeAt {past : List Moment} {m : Moment} {v : Value} (h : m.Makes v) (hm : m.Apt past) :
    MadeAt (sites past) m.store v := by
  fun_cases Moment.Makes v m with
  | case1 f u s =>
    obtain rfl : u = v := h
    exact hm
  | case2 name f s =>
    obtain ⟨u, hu, hmade⟩ := hm
    exact Option.some.inj (hu.symm.trans h) ▸ hmade
  | case3 => simp only [Makes] at h

section told

variable {past : List Moment} (h : ∀ earlier m later, past = earlier ++ m :: later → Received earlier m)
  {a u v : Value} {call : Site}

include h

theorem Received.earlier {earlier later : List Moment} (hpast : past = earlier ++ later) :
    ∀ first m rest, earlier = first ++ m :: rest → Received first m := by
  rintro first m rest rfl
  exact h first m (rest ++ later) (by simpa using hpast)

theorem Received.comparable {m m' : Moment} (hm : m ∈ past) (hm' : m' ∈ past) :
    m.store.scene.Later m'.store.scene ∨ m'.store.scene.Later m.store.scene := by
  obtain ⟨earlier, later, rfl⟩ := List.append_of_mem hm
  obtain hm' | hm' | hm' : m' ∈ earlier ∨ m' = m ∨ m' ∈ later := by simpa using hm'
  · exact .inr ((h earlier m later rfl).later m' hm')
  · exact .inl (hm' ▸ .refl _)
  · obtain ⟨between, rest, rfl⟩ := List.append_of_mem hm'
    exact .inl ((h (earlier ++ m :: between) m' rest (by simp)).later m (by simp))

theorem MethodOf.fetched {name : Token} (hv : MethodOf past a name v) :
    ∃ i r f outer, v = .function i r ∧ r.closure = .link f outer ∧
      r.isInitializer = decide (name.lexeme = initializerName) ∧
      ∃ m ∈ past, m.store.scene.Binds f a ∧ m.store.scene.Self r.closure (some a) := by
  obtain ⟨earlier, o, s, s', later, hpast, habsent⟩ := hv
  obtain ⟨first, b, s₀, hlast, hfetched⟩ := (h (earlier ++ [.gave o a s]) (.gave (.property o name) v s') later
    (by simpa using hpast)).apt
  obtain ⟨rfl, hsame⟩ := List.append_inj' hlast rfl
  obtain ⟨rfl, rfl⟩ : a = b ∧ s = s₀ := by simpa using hsame
  have hm : .gave (.property o name) v s' ∈ past := by simp [hpast]
  cases hfetched with
  | field ha hfield => cases (habsent _ _ ha).symm.trans hfield
  | @method id i c r _ _ _ hinit hvalue hframe hself => exact ⟨i, _, _, _, hvalue, rfl, hinit, _, hm, hframe, hself⟩

theorem Coherent.self_of_callee {earlier later : List Moment} {m : Moment} {i : Nat} {r : Routine}
    (hpast : past = earlier ++ later) (hcall : running? (sites earlier) = some call)
    (hcallee : call.callee = some (.function i r)) (hm : m ∈ past) (hself : m.store.scene.Self r.closure (some a)) :
    call.self = some a := by
  obtain ⟨j, s, hcame, hruns⟩ := (Coherent.of_told (Received.earlier h hpast)).runs hcall
  cases hruns with
  | @function i' r' hcallee' ha =>
    obtain ⟨rfl, rfl⟩ : i = i' ∧ r = r' := by simpa [hcallee] using hcallee'
    exact ha.eq hself (Received.comparable h (m := .came j s) (by simp [hpast, hcame]) hm)
  | initializer hcallee' => simp [hcallee] at hcallee'

theorem Coherent.made {earlier later : List Moment} {m : Moment} (hpast : past = earlier ++ m :: later)
    (hmade : m.Makes v) (hcall : running? (sites earlier) = some call) :
    ∃ i r, v = .function i r ∧ m.store.scene.Self r.closure call.self := by
  obtain ⟨site, outer, i, r, hsites, hv, hself⟩ := hmade.madeAt (h earlier m later hpast).apt
  rw [(Coherent.of_told (Received.earlier h hpast)).self?_eq hsites, hcall] at hself
  exact ⟨i, r, hv, hself⟩

theorem Carries.self (hv : Carries past a v) :
    ∃ i r, v = .function i r ∧ ∃ m ∈ past, m.store.scene.Self r.closure (some a) := by
  induction hv with
  | method hv =>
    obtain ⟨i, r, f, outer, hv, -, -, m, hm, -, hself⟩ := hv.fetched h
    exact ⟨i, r, hv, m, hm, hself⟩
  | @nested earlier later m call u v hpast hmade hcall hcallee hu ih =>
    obtain ⟨i, r, rfl, m', hm', hself⟩ := ih
    obtain ⟨i', r', hv, hself'⟩ := Coherent.made h hpast hmade hcall
    rw [Coherent.self_of_callee h hpast hcall hcallee hm' hself] at hself'
    exact ⟨i', r', hv, m, by simp [hpast], hself'⟩
  | @initial earlier later m call i c v hpast hmade hcall hcallee hself =>
    obtain ⟨i', r', hv, hself'⟩ := Coherent.made h hpast hmade hcall
    rw [hself] at hself'
    exact ⟨i', r', hv, m, by simp [hpast], hself'⟩

theorem Site.For.self (hcall : running? (sites past) = some call) (hfor : call.For past a) : call.self = some a := by
  cases hfor with
  | function hcallee hu =>
    obtain ⟨i, r, rfl, m, hm, hself⟩ := hu.self h
    exact Coherent.self_of_callee h (List.append_nil past).symm hcall hcallee hm hself
  | classDef _ hself => exact hself

theorem Received.fixed {m : Moment} (hm : Received past m) : Fixed past m := by
  have hcoherent : Coherent past (sites past) := .of_told h
  refine ⟨hm.selves, hm.later, ?_, ?_, ?_, ?_⟩
  · rintro o name v s rfl
    exact hm.apt
  · rintro keyword hops v s rfl
    obtain ⟨site, outer, hsites, hself⟩ := hm.apt
    rw [hcoherent.self?_eq hsites] at hself
    obtain ⟨call, hcall, hself⟩ := Option.bind_eq_some_iff.1 hself
    refine ⟨call, hcall, hself, fun a hfor => Option.some.inj (hself.symm.trans (hfor.self h hcall)),
      fun i c hcallee => ?_⟩
    obtain ⟨j, s', -, hruns⟩ := hcoherent.runs hcall
    cases hruns with
    | function hcallee' => simp [hcallee] at hcallee'
    | @initializer i' id c' hcallee' ha hnew =>
      obtain ⟨rfl, rfl⟩ : i = i' ∧ c = c' := by simpa [hcallee] using hcallee'
      exact ⟨id, Option.some.inj (hself.symm.trans ha), hnew⟩
  · rintro keyword hops stop s call a rfl hcall hfor
    obtain hstop | ⟨site, outer, hsites, hnone⟩ := hm.apt
    · exact hstop
    · rw [hcoherent.self?_eq hsites, hcall] at hnone
      cases hnone.symm.trans (hfor.self h hcall)
  · rintro f paren args v s rfl
    obtain ⟨call, outer, hsites, hnode, hcalled⟩ := hm.apt
    refine ⟨call, outer, hsites, hnode, fun i c hcallee => ?_, fun a name u hcallee hu hname => ?_⟩
    · obtain ⟨id, rfl, hnew, hlt, hself⟩ := hcalled.object i c hcallee
      refine ⟨id, rfl, fun hpresent => ?_, hnew, hlt, fun a ha => (hself a ha).symm⟩
      obtain ⟨m, hm, hstore⟩ := hcoherent.ready hsites
      obtain ⟨earlier, later, hpast⟩ := List.append_of_mem hm
      have hold := (h earlier m later hpast).present id (hstore ▸ hpresent)
      rw [hstore] at hold
      omega
    · obtain ⟨i, r, g, outer, rfl, hclosure, hinit, m, hm', hbinds, -⟩ := hu.fetched h
      obtain ⟨g', outer', hclosure', hframe⟩ := hcalled.initializer i r hcallee (by simp [hinit, hname])
      obtain ⟨rfl, rfl⟩ : g = g' ∧ outer = outer' := by simpa [hclosure] using hclosure'
      have hlater : s.scene.Binds g a := (hm.later m hm').binds hbinds
      simpa using hframe.symm.trans hlater

end told

/-- For every sequence of runs of accepted sources, at every moment of all of them. -/
theorem receivers_fixed (clock : Clock) (commands : List Command) :
    let executions := Session.executions commands { store := { clock := clock } }
    (∀ x ∈ executions, ∀ past,
      (∀ t, x.result = .ok () t →
        traceProgram x.fuel x.statements (x.store, past) = .ok () (t, past ++ x.history)) ∧
      ∀ e t, x.result = .error e t →
        traceProgram x.fuel x.statements (x.store, past) = .error e (t, past ++ x.history)) ∧
    ∀ earlier m later, executions.flatMap Execution.history = earlier ++ m :: later → Fixed earlier m := by
  intro executions
  refine ⟨fun x _ past => Execution.traced_eq x past, fun earlier m later heq => ?_⟩
  have hresolved : ∀ x ∈ executions, ResolvedProgram x.statements := fun x hx => Session.executions_resolved hx
  obtain ⟨t, ht⟩ := Session.idle_history (s := { store := { clock := clock } }) commands (.initial clock) hresolved
  exact Received.fixed (Received.earlier ht.safe.told heq) (ht.safe.told earlier m later heq)

section method

def methodTree : List Stmt :=
  let m : Token := ⟨.identifier, "m", 1, none⟩
  let c : Token := ⟨.identifier, "C", 1, none⟩
  let paren : Token := ⟨.rightParen, ")", 1, none⟩
  [.classDecl c [⟨m, ⟨[], [.expression (.self ⟨.kwThis, "this", 1, none⟩ (some 1))]⟩⟩],
    .expression (.call (.property (.call (.ref c none) paren []) m) paren [])]

def methodHistory : List Moment := Execution.history ⟨{ clock := 0 }, 9, methodTree⟩

example : ∃ keyword hops a s call, methodHistory[12]? = some (.gave (.self keyword hops) a s) ∧
    running? (sites (methodHistory.take 12)) = some call ∧ call.For (methodHistory.take 12) a := by
  obtain ⟨o, name, a, v, s, s', later, hfetched, keyword, hops, t, hmention, call, hcall, hcallee, c, hobject, hfield⟩ :
      ∃ o name a v s s' later, (methodHistory.take 12).drop 8 = .gave o a s :: .gave (.property o name) v s' :: later ∧
        ∃ keyword hops t, methodHistory[12]? = some (.gave (.self keyword hops) a t) ∧
        ∃ call, running? (sites (methodHistory.take 12)) = some call ∧ call.callee = some v ∧
        ∃ c, a = .object 0 c ∧ (s.fields 0).find? name.lexeme = none :=
    ⟨_, _, _, _, _, _, _, by cbv, _, _, _, by cbv, _, by cbv, by cbv, _, rfl, by cbv⟩
  have hmethod : MethodOf (methodHistory.take 12) a name v := by
    refine ⟨(methodHistory.take 12).take 8, o, s, s', later, ?_, ?_⟩
    · rw [← hfetched, List.take_append_drop]
    · rintro id c' rfl
      cases hobject
      exact hfield
  exact ⟨keyword, hops, a, t, call, hmention, hcall, .function hcallee (.method hmethod)⟩

end method

end LoxLang
