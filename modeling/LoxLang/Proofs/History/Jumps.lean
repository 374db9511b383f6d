import LoxLang.Proofs.History.Initialized
import LoxLang.Proofs.History.Progress
import LoxLang.Proofs.Tree.Equality

namespace LoxLang

open Traced (act)

/-- How a statement in these surroundings may end. -/
structure Permitted (here : Surroundings) (o : Outcome) : Prop where
  lawful : o.value.Lawful Routine.Allowed
  returned : ∀ v, o = .returned v → here.role ≠ .none
  value : here.role = .initializer → o.value = .nil
  jumps : o.Jumps → here.inLoop = true

/-- How a statement of this form may end. -/
structure Formed (t : Stmt) (o : Outcome) : Prop where
  loop : t.isLoop = true → ¬ o.Jumps
  expression : ∀ e, t = .expression e → o = .normal

/-- A statement in its surroundings, inside these nodes. -/
inductive Stmt.SitsIn (t : Stmt) (here : Surroundings) : List Running → Prop
  | top (hrole : here.role = .none) (hloop : here.inLoop = false) : SitsIn t here []
  | body {f : Expr} {paren : Token} {args : List Expr} {callee : Value} {r : Routine} {outer : List Running}
    (hr : callee.routine? = some r) (ht : t ∈ r.definition.body)
    (hrole : callee.initializes = true → here.role = .initializer) (hloop : here.inLoop = false) :
    SitsIn t here (⟨.expr (.call f paren args), some callee⟩ :: outer)
  | inside {u : Stmt} {outer : List Running} (ht : Node.stmt t ∈ (Node.stmt u).parts)
    (hstep : ∀ c b, u = .whileLoop c b (some t) → ∃ e, t = .expression e) : SitsIn t here (⟨.stmt u, none⟩ :: outer)

structure Stmt.Sits (t : Stmt) (here : Surroundings) (nodes : List Running) : Prop where
  sits : t.SitsIn here nodes
  loop : here.inLoop = true → InBody t nodes ∨ ∃ e, t = .expression e

section ends

variable {here : Surroundings} {o : Outcome} {t : Stmt} {nodes : List Running}

theorem Permitted.normal (here : Surroundings) : Permitted here .normal :=
  ⟨.nil, fun v h => (by cases h), fun _ => rfl, fun h => h.elim⟩

theorem Formed.of_normal (t : Stmt) : Formed t .normal := ⟨fun _ h => h, fun _ _ => rfl⟩

theorem Permitted.eq_normal (h : Permitted here o) (hrole : here.role = .none) (hloop : here.inLoop = false) :
    o = .normal := by
  cases o with
  | normal => rfl
  | returned v => exact absurd hrole (h.returned v rfl)
  | broken | continued => exact absurd (h.jumps trivial) (by simp [hloop])

theorem Stmt.Sits.contained (h : t.Sits here nodes) (ho : Permitted here o) (hform : Formed t o) :
    Contained t o nodes := by
  refine ⟨?_, hform.loop, fun hjumps => ?_⟩
  · cases h.sits with
    | top hrole hloop => exact .top (ho.eq_normal hrole hloop)
    | body hr ht hrole hloop =>
      refine .body hr ht (fun hjumps => ?_) fun hinit => ho.value (hrole hinit)
      simpa [hloop] using ho.jumps hjumps
    | inside ht hstep =>
      refine .inside ht fun c b hu => ?_
      obtain ⟨e, he⟩ := hstep c b hu
      exact hform.expression e he
  · refine (h.loop (ho.jumps hjumps)).resolve_right ?_
    rintro ⟨e, he⟩
    rw [hform.expression e he] at hjumps
    exact hjumps

end ends

structure Tracer.Tame (m : Tracer) : Prop where
  eval : ∀ {Δ e σ}, Resolved Δ (.expr e) → σ.due = none →
    LoxLang.Tame σ (fun v τ => v.Lawful Routine.Allowed ∧ τ = ⟨Progress.give v σ.nodes, none⟩) (m.eval e)
  exec : ∀ {Δ t σ}, Resolved Δ (.stmt t) → t.Sits Δ.here σ.nodes → σ.due = none →
    LoxLang.Tame σ (fun o τ => Permitted Δ.here o ∧ Formed t o ∧ τ = ⟨σ.nodes, Progress.owed o σ.nodes⟩) (m.exec t)

/-- An expression that gives this value. Only a call can have its value decided by a statement. -/
structure Gives (e : Expr) (callee : Option Value) (outer : List Running) (v : Value) (τ : Progress) : Prop where
  lawful : v.Lawful Routine.Allowed
  nodes : τ.nodes = ⟨.expr e, callee⟩ :: outer
  due : ∀ o, τ.due = some o → ∃ a, callee = some a ∧ (a.initializes = false → v = o.value)

theorem Gives.of_store {e : Expr} {outer : List Running} {v : Value} {τ : Progress}
    (h : v.Lawful Routine.Allowed ∧ τ = ⟨⟨.expr e, none⟩ :: outer, none⟩) : ∃ callee, Gives e callee outer v τ := by
  obtain ⟨hv, rfl⟩ := h
  exact ⟨none, hv, rfl, fun o ho => by cases ho⟩

section child

variable {here : Surroundings} {t u : Stmt} {outer : List Running}

theorem Stmt.Sits.part (h : u.Sits here outer) (hloop : u.isLoop = false) (hexpr : ∀ e, u ≠ .expression e)
    (ht : Node.stmt t ∈ (Node.stmt u).parts) : t.Sits here (⟨.stmt u, none⟩ :: outer) := by
  refine ⟨.inside ht fun c b hu => ?_, fun hin => .inl (.statement hloop ?_)⟩
  · rw [hu] at hloop
    cases hloop
  · refine (h.loop hin).resolve_right ?_
    rintro ⟨e, he⟩
    exact hexpr e he

end child

namespace Tracer.Tame

variable {m : Tracer} (h : m.Tame) {σ : Progress}

include h

theorem child {Δ : Context} {e : Expr} (he : Resolved Δ (.expr e)) (hdue : σ.due = none)
    (hgive : ∀ v, Progress.give v σ.nodes = σ.nodes) :
    LoxLang.Tame σ (fun v τ => v.Lawful Routine.Allowed ∧ τ = σ) (m.eval e) := by
  refine (h.eval he hdue).weaken fun v τ => ?_
  rintro ⟨hv, rfl⟩
  rw [hgive]
  obtain ⟨nodes, due⟩ := σ
  exact ⟨hv, hdue ▸ rfl⟩

theorem evalAll {Δ : Context} {es : List Expr} (hes : ∀ e ∈ es, Resolved Δ (.expr e)) (hdue : σ.due = none)
    (hgive : ∀ v, Progress.give v σ.nodes = σ.nodes) :
    LoxLang.Tame σ (fun vs τ => (∀ v ∈ vs, v.Lawful Routine.Allowed) ∧ τ = σ) (m.evalAll es) := by
  induction es with
  | nil => exact .pure ⟨fun v hv => (by cases hv), rfl⟩
  | cons e es ih =>
    rw [List.forall_mem_cons] at hes
    refine (h.child hes.1 hdue hgive).bind fun v τ => ?_
    rintro ⟨hv, rfl⟩
    refine (ih hes.2).bind fun vs τ => ?_
    rintro ⟨hvs, rfl⟩
    exact .pure ⟨List.forall_mem_cons.2 ⟨hv, hvs⟩, rfl⟩

theorem sequence {Δ : Context} {ss : List Stmt} (hss : ∀ x ∈ Δ.sequence ss, Resolved x.1 x.2)
    (hsits : ∀ t ∈ ss, t.Sits Δ.here σ.nodes) (hdue : σ.due = none) :
    LoxLang.Tame σ (fun o τ => Permitted Δ.here o ∧ τ = ⟨σ.nodes, Progress.owed o σ.nodes⟩) (m.sequence ss) := by
  induction ss generalizing Δ with
  | nil =>
    refine .pure ⟨.normal _, ?_⟩
    obtain ⟨nodes, due⟩ := σ
    rw [Progress.owed_normal]
    exact hdue ▸ rfl
  | cons t ts ih =>
    rw [Context.sequence, List.forall_mem_cons] at hss
    rw [List.forall_mem_cons] at hsits
    refine (h.exec hss.1 hsits.1 hdue).bind fun o τ => ?_
    rintro ⟨ho, -, rfl⟩
    cases o with
    | normal =>
      have hsame : (⟨σ.nodes, Progress.owed .normal σ.nodes⟩ : Progress) = σ := by
        obtain ⟨nodes, due⟩ := σ
        rw [Progress.owed_normal]
        exact hdue ▸ rfl
      rw [hsame]
      have hrest := ih hss.2
      rw [Context.here_after] at hrest
      exact hrest hsits.2
    | _ => exact .pure ⟨ho, rfl⟩

theorem block {Δ : Context} {ss : List Stmt} {contents : Bindings Value} (outer : Chain)
    (hcontents : ∀ name v, contents.find? name = some v → v.Lawful Routine.Allowed)
    (hss : ∀ x ∈ Δ.sequence ss, Resolved x.1 x.2) (hsits : ∀ t ∈ ss, t.Sits Δ.here σ.nodes) (hdue : σ.due = none) :
    LoxLang.Tame σ (fun o τ => Permitted Δ.here o ∧ τ = ⟨σ.nodes, Progress.owed o σ.nodes⟩)
      (m.block contents outer ss) := by
  refine (LoxLang.Tame.act (P := fun _ τ => τ = σ) hdue (.pushFrame outer hcontents) fun _ _ => rfl).bind fun c τ => ?_
  rintro rfl
  exact (h.sequence hss hsits hdue).within c

section call

variable {f : Expr} {paren : Token} {args : List Expr} {callee : Value} {as : List Value} {outer : List Running}

theorem invoke {r b : Routine} (hr : callee.routine? = some r) (hb : b.Allowed) (hdefinition : b.definition = r.definition)
    (hinit : callee.initializes = b.isInitializer) (has : ∀ a ∈ as, a.Lawful Routine.Allowed) :
    LoxLang.Tame ⟨⟨.expr (.call f paren args), some callee⟩ :: outer, none⟩
      (Gives (.call f paren args) (some callee) outer) (m.invoke b as) := by
  obtain ⟨Δ, hresolved, hrole, hinitrole⟩ := hb
  refine (h.block b.closure (Δ := (Δ.enter (.function b.definition) (paramsSeen b.definition.params)).withLoop false)
    (fun name a ha => has a (mem_of_bindAll ha)) ((resolved_iff Δ _).1 hresolved).2 (fun t ht => ?_) rfl).bind
    fun o τ => ?_
  · refine ⟨.body hr (hdefinition ▸ ht) (fun hi => hinitrole (hinit ▸ hi)) rfl, fun hloop => ?_⟩
    cases hloop
  rintro ⟨ho, rfl⟩
  refine .get fun s hs => .pure ⟨?_, rfl, fun o' ho' => ⟨callee, rfl, fun hi => ?_⟩⟩
  · unfold Routine.result
    split
    · cases hself : (s.frames.frame b.closure.frame).find? selfName with
      | none => exact .nil
      | some a => exact hs.frames _ _ a hself
    · exact ho.lawful
  · change Progress.owed o (⟨.expr (.call f paren args), some callee⟩ :: outer) = some o' at ho'
    obtain rfl := Progress.owed_eq (by simp) ho'
    rw [hinit] at hi
    simp [Routine.result, hi]

theorem instantiate {id : Nat} {c : Class} (hc : c.Lawful Routine.Allowed) (has : ∀ a ∈ as, a.Lawful Routine.Allowed) :
    LoxLang.Tame ⟨⟨.expr (.call f paren args), some (.classDef id c)⟩ :: outer, none⟩
      (Gives (.call f paren args) (some (.classDef id c)) outer) (m.instantiate c as) := by
  refine (LoxLang.Tame.store rfl (.newObject hc)).bind fun self τ => ?_
  rintro ⟨hself, rfl⟩
  cases hinit : c.initializer? with
  | none => exact .pure ⟨hself, rfl, fun o ho => by cases ho⟩
  | some r =>
    obtain ⟨hr, hisinit⟩ := hc.initializer hinit
    refine (LoxLang.Tame.store rfl (.bindTo (fun _ _ hr => hr) hr hself)).bind fun b τ => ?_
    rintro ⟨⟨hb, hdefinition, hsame⟩, rfl⟩
    have hrun : LoxLang.Tame ⟨⟨.expr (.call f paren args), some (.classDef id c)⟩ :: outer, none⟩
        (Gives (.call f paren args) (some (.classDef id c)) outer) (m.invoke b as) :=
      h.invoke hinit hb hdefinition (hsame.trans hisinit).symm has
    refine hrun.bind fun v τ hv => ?_
    refine .pure ⟨hself, hv.nodes, fun o ho => ⟨_, rfl, fun hi => ?_⟩⟩
    cases hi

theorem apply (line : Int) (hcallee : callee.Lawful Routine.Allowed) (has : ∀ a ∈ as, a.Lawful Routine.Allowed) :
    LoxLang.Tame ⟨⟨.expr (.call f paren args), some callee⟩ :: outer, none⟩
      (Gives (.call f paren args) (some callee) outer) (m.apply callee as line) := by
  have hchecked : ∀ arity p,
      (as.length = arity → LoxLang.Tame ⟨⟨.expr (.call f paren args), some callee⟩ :: outer, none⟩
        (Gives (.call f paren args) (some callee) outer) p) →
      LoxLang.Tame ⟨⟨.expr (.call f paren args), some callee⟩ :: outer, none⟩
        (Gives (.call f paren args) (some callee) outer) (checked arity as line p) := by
    intro arity p hp
    unfold checked
    split
    · exact (hp ‹_›).blaming line
    · exact .fault rfl _ _
  unfold Tracer.apply
  cases hcallee with
  | native n =>
    refine hchecked _ _ fun hcount => (LoxLang.Tame.store rfl (.native n has hcount)).weaken fun v τ => ?_
    rintro ⟨hv, rfl⟩
    exact ⟨hv, rfl, fun o ho => by cases ho⟩
  | function id hr => exact hchecked _ _ fun _ => h.invoke rfl hr rfl rfl has
  | classDef id hc => exact hchecked _ _ fun _ => h.instantiate hc has
  | _ => exact .fault rfl _ _

end call

theorem evalRule {Δ : Context} {e : Expr} (outer : List Running) (he : Resolved Δ (.expr e)) :
    LoxLang.Tame ⟨⟨.expr e, none⟩ :: outer, none⟩ (fun v τ => ∃ callee, Gives e callee outer v τ) (m.evalRule e) := by
  obtain ⟨⟨hregular, -⟩, hbelow⟩ := (resolved_iff Δ _).1 he
  have hstore : ∀ {α : Type} {P : α → Prop} {q : Exec α}, Exec.Keeps Routine.Allowed P q →
      LoxLang.Tame ⟨⟨.expr e, none⟩ :: outer, none⟩
        (fun a τ => P a ∧ τ = ⟨⟨.expr e, none⟩ :: outer, none⟩) (act q) := fun hq => .store rfl hq
  have hchild : ∀ {k : Expr}, (Δ, Node.expr k) ∈ (Node.expr e).children Δ →
      (∀ v, Progress.give v (⟨.expr e, none⟩ :: outer) = ⟨.expr e, none⟩ :: outer) →
      LoxLang.Tame ⟨⟨.expr e, none⟩ :: outer, none⟩
        (fun v τ => v.Lawful Routine.Allowed ∧ τ = ⟨⟨.expr e, none⟩ :: outer, none⟩) (m.eval k) :=
    fun hk hgive => h.child (hbelow _ hk) rfl hgive
  have hchildren : ∀ {τ : Progress} {es : List Expr}, (∀ k ∈ es, (Δ, Node.expr k) ∈ (Node.expr e).children Δ) →
      τ.due = none → (∀ v, Progress.give v τ.nodes = τ.nodes) →
      LoxLang.Tame τ (fun vs τ' => (∀ v ∈ vs, v.Lawful Routine.Allowed) ∧ τ' = τ) (m.evalAll es) :=
    fun hes hdue hgive => h.evalAll (fun k hk => hbelow _ (hes k hk)) hdue hgive
  cases e with
  | literal l => exact .pure (Gives.of_store ⟨((Value.Lawful.lookalike _).ofLiteral l).2, rfl⟩)
  | ref name hops => exact (hstore (.read name hops)).weaken fun _ _ => Gives.of_store
  | self keyword hops => exact (hstore (.read keyword hops)).weaken fun _ _ => Gives.of_store
  | assign name hops e =>
    refine (hchild (by simp [Node.children]) fun _ => rfl).bind fun v τ => ?_
    rintro ⟨hv, rfl⟩
    refine (hstore (.write name hops hv)).bind fun _ τ => ?_
    rintro ⟨-, rfl⟩
    exact .pure (Gives.of_store ⟨hv, rfl⟩)
  | group e =>
    exact (hchild (by simp [Node.children]) fun _ => rfl).weaken fun _ _ => Gives.of_store
  | unary op e =>
    refine (hchild (by simp [Node.children]) fun _ => rfl).bind fun v τ => ?_
    rintro ⟨hv, rfl⟩
    exact (hstore (.unary op hv)).weaken fun _ _ => Gives.of_store
  | binary l op r =>
    refine (hchild (by simp [Node.children]) fun _ => rfl).bind fun v τ => ?_
    rintro ⟨hv, rfl⟩
    refine (hchild (by simp [Node.children]) fun _ => rfl).bind fun u τ => ?_
    rintro ⟨hu, rfl⟩
    exact (hstore (.binary op hv hu)).weaken fun _ _ => Gives.of_store
  | logical l op r =>
    refine (hchild (by simp [Node.children]) fun _ => rfl).bind fun v τ => ?_
    rintro ⟨hv, rfl⟩
    split
    · exact .pure (Gives.of_store ⟨hv, rfl⟩)
    · exact (hchild (by simp [Node.children]) fun _ => rfl).weaken fun _ _ => Gives.of_store
  | ternary c y n line =>
    refine (hchild (by simp [Node.children]) fun _ => rfl).bind fun v τ => ?_
    rintro ⟨-, rfl⟩
    split
    · exact (hchild (by simp [Node.children]) fun _ => rfl).weaken fun _ _ => Gives.of_store
    · exact (hchild (by simp [Node.children]) fun _ => rfl).weaken fun _ _ => Gives.of_store
    · exact .act rfl ((Exec.Keeps.text _).bind fun _ _ => .fault (P := fun _ => False) _ _) fun _ h => h.elim
  | call f paren args =>
    refine (h.eval (hbelow (Δ, .expr f) (by simp [Node.children])) rfl).bind fun callee τ => ?_
    rintro ⟨hcallee, rfl⟩
    refine (hchildren (fun k hk => by simp [Node.children, hk]) rfl fun _ => rfl).bind fun as τ => ?_
    rintro ⟨has, rfl⟩
    exact (h.apply paren.line hcallee has).weaken fun v τ hv => ⟨_, hv⟩
  | property o name =>
    refine (hchild (by simp [Node.children]) fun _ => rfl).bind fun v τ => ?_
    rintro ⟨hv, rfl⟩
    exact (hstore (.property (fun _ _ hr => hr) name hv)).weaken fun _ _ => Gives.of_store
  | setProperty o name e =>
    refine (hchild (by simp [Node.children]) fun _ => rfl).bind fun v τ => ?_
    rintro ⟨-, rfl⟩
    split
    · refine (hchild (by simp [Node.children]) fun _ => rfl).bind fun u τ => ?_
      rintro ⟨hu, rfl⟩
      refine (hstore (.setField _ _ hu)).bind fun _ τ => ?_
      rintro ⟨-, rfl⟩
      exact .pure (Gives.of_store ⟨hu, rfl⟩)
    · exact .fault rfl _ _
  | function f =>
    refine (hstore .freshId).bind fun id τ => ?_
    rintro ⟨-, rfl⟩
    refine .get fun s _ => .pure (Gives.of_store ⟨.function id ?_, rfl⟩)
    exact ⟨_, hbelow (Δ.withRole .function, .lambda f) (by simp [Node.children]), by simp [Context.withRole],
      fun hi => by cases hi⟩
  | list es =>
    refine (hchildren (fun k hk => by simp [Node.children, hk]) rfl fun _ => rfl).bind fun as τ => ?_
    rintro ⟨has, rfl⟩
    exact (hstore (.newList has)).weaken fun _ _ => Gives.of_store
  | ofStmt t => exact hregular.elim
  | stub s => exact hregular.elim

omit h in
theorem passes (here : Surroundings) {t : Stmt} {outer : List Running} {test : Traced Bool} {body : Traced Outcome}
    {next : Traced Unit} (ht : t.isLoop = true)
    (htest : LoxLang.Tame ⟨⟨.stmt t, none⟩ :: outer, none⟩ (fun _ τ => τ = ⟨⟨.stmt t, none⟩ :: outer, none⟩) test)
    (hbody : LoxLang.Tame ⟨⟨.stmt t, none⟩ :: outer, none⟩ (fun o τ => Permitted { here with inLoop := true } o ∧
      τ = ⟨⟨.stmt t, none⟩ :: outer, Progress.owed o (⟨.stmt t, none⟩ :: outer)⟩) body)
    (hnext : LoxLang.Tame ⟨⟨.stmt t, none⟩ :: outer, none⟩ (fun _ τ => τ = ⟨⟨.stmt t, none⟩ :: outer, none⟩) next)
    (n : Nat) : LoxLang.Tame ⟨⟨.stmt t, none⟩ :: outer, none⟩ (fun o τ => (Permitted here o ∧ ¬ o.Jumps) ∧
      τ.nodes = ⟨.stmt t, none⟩ :: outer ∧ ∀ o', τ.due = some o' → o = o') (Traced.passes test body next n) := by
  cases t with
  | whileLoop c b step =>
    induction n with
    | zero => exact .endless rfl
    | succ n ih =>
      refine htest.bind fun go τ => ?_
      rintro rfl
      cases go with
      | false => exact .pure ⟨⟨.normal here, id⟩, rfl, fun o' ho' => by cases ho'⟩
      | true =>
        refine hbody.bind fun o τ => ?_
        rintro ⟨ho, rfl⟩
        cases o with
        | broken => exact .pure ⟨⟨.normal here, id⟩, rfl, fun o' ho' => Option.some.inj ho'⟩
        | returned v =>
          refine .pure ⟨⟨⟨ho.lawful, ho.returned, ho.value, False.elim⟩, id⟩, rfl, fun o' ho' => Option.some.inj ho'⟩
        | normal | continued =>
          refine hnext.bind fun _ τ => ?_
          rintro rfl
          exact ih
  | _ => cases ht

def Ends (here : Surroundings) (t : Stmt) (outer : List Running) (o : Outcome) (τ : Progress) : Prop :=
  (Permitted here o ∧ Formed t o) ∧ τ.nodes = ⟨.stmt t, none⟩ :: outer ∧ ∀ o', τ.due = some o' → o = o'

theorem execRule {Δ : Context} {t : Stmt} {outer : List Running} (ht : Resolved Δ (.stmt t))
    (hsits : t.Sits Δ.here outer) :
    LoxLang.Tame ⟨⟨.stmt t, none⟩ :: outer, none⟩ (Ends Δ.here t outer) (m.execRule t) := by
  obtain ⟨⟨hregular, hlegal⟩, hbelow⟩ := (resolved_iff Δ _).1 ht
  have hstore : ∀ {α : Type} {P : α → Prop} {q : Exec α}, Exec.Keeps Routine.Allowed P q →
      LoxLang.Tame ⟨⟨.stmt t, none⟩ :: outer, none⟩
        (fun a τ => P a ∧ τ = ⟨⟨.stmt t, none⟩ :: outer, none⟩) (act q) := fun hq => .store rfl hq
  have hchild : ∀ Γ {k}, (Γ, Node.expr k) ∈ (Node.stmt t).children Δ →
      LoxLang.Tame ⟨⟨.stmt t, none⟩ :: outer, none⟩
        (fun v τ => v.Lawful Routine.Allowed ∧ τ = ⟨⟨.stmt t, none⟩ :: outer, none⟩) (m.eval k) :=
    fun _ _ hk => h.child (hbelow _ hk) rfl fun _ => rfl
  have hnormal : LoxLang.Tame ⟨⟨.stmt t, none⟩ :: outer, none⟩ (Ends Δ.here t outer) (pure .normal) :=
    .pure ⟨⟨.normal _, .of_normal t⟩, rfl, fun o' ho' => by cases ho'⟩
  -- in a block or branch a statement decides how this one ends
  have hinside : ∀ {p : Traced Outcome}, t.isLoop = false → (∀ e, t ≠ .expression e) →
      LoxLang.Tame ⟨⟨.stmt t, none⟩ :: outer, none⟩ (fun o τ => Permitted Δ.here o ∧
        τ = ⟨⟨.stmt t, none⟩ :: outer, Progress.owed o (⟨.stmt t, none⟩ :: outer)⟩) p →
      LoxLang.Tame ⟨⟨.stmt t, none⟩ :: outer, none⟩ (Ends Δ.here t outer) p := by
    intro p hloop hexpr hp
    refine hp.weaken fun o τ => ?_
    rintro ⟨ho, rfl⟩
    refine ⟨⟨ho, fun h => by simp [hloop] at h, fun e he => absurd he (hexpr e)⟩, rfl, fun o' ho' => ?_⟩
    refine Progress.owed_eq (fun c b step hnode => ?_) ho'
    cases hnode
    cases hloop
  have hdecided : ∀ {o : Outcome}, Permitted Δ.here o → (∀ e, t ≠ .expression e) → t.isLoop = false →
      LoxLang.Tame ⟨⟨.stmt t, none⟩ :: outer, none⟩ (Ends Δ.here t outer) (pure o) := fun ho hexpr hloop =>
    .pure ⟨⟨ho, fun h => by simp [hloop] at h, fun e he => absurd he (hexpr e)⟩, rfl, fun o' ho' => by cases ho'⟩
  cases t with
  | expression e =>
    refine (hchild Δ (by simp [Node.children])).bind fun v τ => ?_
    rintro ⟨-, rfl⟩
    exact hnormal
  | print e =>
    refine (hchild Δ (by simp [Node.children])).bind fun v τ => ?_
    rintro ⟨-, rfl⟩
    refine (hstore (.text v)).bind fun text τ => ?_
    rintro ⟨-, rfl⟩
    refine (hstore (.print text)).bind fun _ τ => ?_
    rintro ⟨-, rfl⟩
    exact hnormal
  | varDecl name initial =>
    have hdefine : ∀ {v : Value}, v.Lawful Routine.Allowed →
        LoxLang.Tame ⟨⟨.stmt (.varDecl name initial), none⟩ :: outer, none⟩
          (Ends Δ.here (.varDecl name initial) outer) (do act (Exec.define name.lexeme v); pure .normal) := by
      intro v hv
      refine (hstore (.define name.lexeme hv)).bind fun _ τ => ?_
      rintro ⟨-, rfl⟩
      exact hnormal
    cases initial with
    | none => exact hdefine .nil
    | some e =>
      refine (hchild (Δ.put name.lexeme false) (by simp [Node.children])).bind fun v τ => ?_
      rintro ⟨hv, rfl⟩
      exact hdefine hv
  | funDecl name f =>
    refine (hstore .freshId).bind fun id τ => ?_
    rintro ⟨-, rfl⟩
    refine .get fun s _ => (hstore (.define name.lexeme (.function id ?_))).bind fun _ τ => ?_
    · exact ⟨_, hbelow ((Δ.put name.lexeme true).withRole .function, .lambda f) (by simp [Node.children]),
        by simp [Context.withRole], fun hi => by cases hi⟩
    rintro ⟨-, rfl⟩
    exact hnormal
  | classDecl name methods =>
    refine (hstore (.define name.lexeme .nil)).bind fun _ τ => ?_
    rintro ⟨-, rfl⟩
    refine (hstore .freshId).bind fun id τ => ?_
    rintro ⟨-, rfl⟩
    refine .get fun s _ => (hstore (.define name.lexeme (.classDef id fun other r hr => ?_))).bind fun _ τ => ?_
    · obtain ⟨method, hmethod, hname, rfl⟩ := methodTable_find? hr
      refine ⟨⟨_, hbelow _ (List.mem_map_of_mem hmethod), ?_, fun hi => ?_⟩, rfl⟩
      · simp only [Context.withRole, Method.role]
        split <;> simp
      · simp only [decide_eq_true_eq] at hi
        simp [Context.withRole, Method.role, hname, hi]
    rintro ⟨-, rfl⟩
    exact hnormal
  | block ss =>
    refine hinside rfl (by simp) (.get fun s _ => ?_)
    refine h.block (Δ := Δ.enter (.block ss) ⟨[]⟩) s.chain (fun _ _ hfind => by simp at hfind) hbelow
      (fun t ht => ?_) rfl
    refine hsits.part rfl (by simp) ?_
    rw [Node.parts, Node.children, Context.sequence_snd]
    exact List.mem_map_of_mem ht
  | ifThen c y no =>
    have hbranch : ∀ {u : Stmt}, (Δ, Node.stmt u) ∈ (Node.stmt (.ifThen c y no)).children Δ →
        LoxLang.Tame ⟨⟨.stmt (.ifThen c y no), none⟩ :: outer, none⟩
          (Ends Δ.here (.ifThen c y no) outer) (m.exec u) := by
      intro u hu
      have hpart : Node.stmt u ∈ (Node.stmt (.ifThen c y no)).parts := by
        rw [← Node.children_snd Δ]
        exact List.mem_map_of_mem hu
      refine hinside rfl (by simp) ((h.exec (hbelow _ hu) (hsits.part rfl (by simp) hpart) rfl).weaken fun o τ => ?_)
      rintro ⟨ho, -, rfl⟩
      exact ⟨ho, rfl⟩
    refine (hchild Δ (by cases no <;> simp [Node.children])).bind fun v τ => ?_
    rintro ⟨-, rfl⟩
    split
    · exact hbranch (by cases no <;> simp [Node.children])
    · cases no with
      | none => exact hnormal
      | some n => exact hbranch (by simp [Node.children])
  | whileLoop c b step =>
    refine (passes Δ.here rfl ?_ ?_ ?_ m.limit).weaken fun o τ => ?_
    · refine (hchild Δ (by cases step <;> simp [Node.children])).bind fun v τ => ?_
      rintro ⟨-, rfl⟩
      exact .pure rfl
    · have hb : (Δ.withLoop true, Node.stmt b) ∈ (Node.stmt (.whileLoop c b step)).children Δ := by
        cases step <;> simp [Node.children]
      refine (h.exec (hbelow _ hb) ⟨.inside ?_ fun c' b' he => ?_, fun _ => .inl .loop⟩ rfl).weaken fun o τ => ?_
      · cases step <;> simp [Node.parts, Node.children]
      · obtain ⟨rfl, rfl, rfl⟩ := Stmt.whileLoop.inj he
        exact hregular.2 _ rfl
      · rintro ⟨ho, -, rfl⟩
        exact ⟨ho, rfl⟩
    · cases step with
      | none => exact .pure rfl
      | some u =>
        obtain ⟨e, rfl⟩ := hregular.2 u rfl
        have hu : (Δ.withLoop true, Node.stmt (.expression e)) ∈
            (Node.stmt (.whileLoop c b (some (.expression e)))).children Δ := by simp [Node.children]
        refine (h.exec (hbelow _ hu) ⟨.inside ?_ fun _ _ _ => ⟨e, rfl⟩, fun _ => .inr ⟨e, rfl⟩⟩ rfl).bind fun o τ => ?_
        · simp [Node.parts, Node.children]
        · rintro ⟨-, hform, rfl⟩
          obtain rfl := hform.expression e rfl
          exact .pure rfl
    · rintro ⟨⟨ho, hjumps⟩, hnodes, hdue⟩
      exact ⟨⟨ho, fun _ => hjumps, fun e he => by cases he⟩, hnodes, hdue⟩
  | ret keyword value =>
    cases value with
    | none =>
      refine hdecided ⟨.nil, fun _ _ => hlegal.1, fun _ => rfl, False.elim⟩ (by simp) rfl
    | some e =>
      refine (hchild Δ (by simp [Node.children])).bind fun v τ => ?_
      rintro ⟨hv, rfl⟩
      exact hdecided ⟨hv, fun _ _ => hlegal.1, fun hrole => absurd hrole (hlegal.2 rfl), False.elim⟩ (by simp) rfl
  | breakLoop keyword | continueLoop keyword =>
    exact hdecided ⟨.nil, fun _ h => (by cases h), fun _ => rfl, fun _ => hlegal⟩ (by simp) rfl
  | ofExpr e => exact hregular.elim

end Tracer.Tame

theorem trace_tame (n : Nat) : Tracer.Tame ⟨n, traceEval n, traceExec n⟩ := by
  have heval : ∀ {Δ e σ p}, Resolved Δ (.expr e) → σ.due = none →
      Tame ⟨⟨.expr e, none⟩ :: σ.nodes, none⟩ (fun v τ => ∃ callee, Gives e callee σ.nodes v τ) p →
      Tame σ (fun v τ => v.Lawful Routine.Allowed ∧ τ = ⟨Progress.give v σ.nodes, none⟩)
        (Traced.marked (.expr e) (.gave e) p) := by
    intro Δ e σ p he hdue hp
    refine .marked hdue hp fun v τ s => ?_
    rintro ⟨callee, hv⟩
    refine ⟨.gave hv.nodes hv.due, hv.lawful, ?_⟩
    rw [Progress.after, hv.nodes, List.tail_cons]
  have hexec : ∀ {Δ t σ p}, Resolved Δ (.stmt t) → t.Sits Δ.here σ.nodes → σ.due = none →
      Tame ⟨⟨.stmt t, none⟩ :: σ.nodes, none⟩ (Tracer.Tame.Ends Δ.here t σ.nodes) p →
      Tame σ (fun o τ => Permitted Δ.here o ∧ Formed t o ∧ τ = ⟨σ.nodes, Progress.owed o σ.nodes⟩)
        (Traced.marked (.stmt t) (.ended t) p) := by
    intro Δ t σ p ht hsits hdue hp
    refine .marked hdue hp fun o τ s => ?_
    rintro ⟨⟨ho, hform⟩, hnodes, hdue'⟩
    refine ⟨.ended hnodes hdue' (hsits.contained ho hform), ho, hform, ?_⟩
    rw [Progress.after, hnodes, List.tail_cons]
  induction n with
  | zero =>
    refine ⟨fun he hdue => ?_, fun ht hsits hdue => ?_⟩
    · simp only [traceEval]
      exact heval he hdue (.endless rfl)
    · simp only [traceExec]
      exact hexec ht hsits hdue (.endless rfl)
  | succ n ih =>
    refine ⟨fun he hdue => ?_, fun ht hsits hdue => ?_⟩
    · simp only [traceEval]
      exact heval he hdue (ih.evalRule _ he)
    · simp only [traceExec]
      exact hexec ht hsits hdue (ih.execRule ht hsits)

theorem traceProgram_tame (n : Nat) {Γ : Context} {ss : List Stmt} (hΓ : Γ.here = {})
    (hss : ∀ x ∈ Γ.sequence ss, Resolved x.1 x.2) : Tame {} (fun _ τ => τ = {}) (traceProgram n ss) := by
  induction ss generalizing Γ with
  | nil => exact .pure rfl
  | cons t ts ih =>
    rw [Context.sequence, List.forall_mem_cons] at hss
    have hsits : t.Sits Γ.here [] := ⟨.top (by rw [hΓ]) (by rw [hΓ]), fun hloop => by simp [hΓ] at hloop⟩
    refine ((trace_tame n).exec (σ := {}) hss.1 hsits rfl).bind fun o τ => ?_
    rintro ⟨-, -, rfl⟩
    exact ih (by rw [Context.here_after, hΓ]) hss.2

theorem Execution.tame {x : Execution} (hx : ResolvedProgram x.statements) (hs : x.store.Lawful Routine.Allowed) :
    x.storeAfter.Lawful Routine.Allowed ∧ Ordered x.history ∧ (progress x.history).due = none := by
  obtain ⟨hok, herror⟩ := traceProgram_tame x.fuel (Γ := {}) rfl hx (x.store, []) hs rfl .nil
  unfold storeAfter
  cases hresult : x.result with
  | ok _ t =>
    obtain ⟨hs', ho, hdone⟩ := hok _ _ ((traced_eq x []).1 t hresult)
    exact ⟨hs', ho, by
      rw [List.nil_append] at hdone
      rw [hdone]⟩
  | error e t => exact herror _ _ ((traced_eq x []).2 e t hresult)

theorem Session.executions_lawful {commands : List Command} {s : Session} (hs : s.store.Lawful Routine.Allowed)
    (hresolved : ∀ x ∈ executions commands s, ResolvedProgram x.statements) :
    ∀ x ∈ executions commands s, x.store.Lawful Routine.Allowed :=
  (stores_keep (fun hframes hlists hobjects _ h => h.congr hframes hlists hobjects) commands hs
    fun x hx hx' => (Execution.tame (hresolved x hx) hx').1).1

/-- In the history of all that a session runs, nothing comes between the end of a statement and the end of what
it decides; no jump leaves its loop or its function; and what calls, steps of loops and the top of a program
do not look at never happens. -/
theorem jumps_contained (clock : Clock) (commands : List Command) {x : Execution}
    (hx : x ∈ Session.executions commands { store := { clock := clock } }) :
    ((∀ t, x.result = .ok () t → x.traced = .ok () (t, x.history)) ∧
      ∀ e t, x.result = .error e t → x.traced = .error e (t, x.history)) ∧
    (progress x.history).due = none ∧
    ∀ earlier m later, x.history = earlier ++ m :: later → Orderly (progress earlier) m := by
  have hs := Session.executions_lawful (s := { store := { clock := clock } }) (.initial _ clock)
    (fun y hy => Session.executions_resolved hy) x hx
  obtain ⟨-, hordered, hdue⟩ := Execution.tame (Session.executions_resolved hx) hs
  exact ⟨Execution.traced_eq x [], hdue, hordered⟩

section loop

def loopText : String := "while (true) \x7b if (true) break; \x7d"

def loopBreak : Stmt := .breakLoop ⟨.kwBreak, "break", 1, none⟩

def loopTree : List Stmt :=
  [.whileLoop (.literal (.bool true)) (.block [.ifThen (.literal (.bool true)) loopBreak none]) none]

theorem loopText_prepared : Session.prepared? false loopText {} = some loopTree := by
  have hscan : (Token.scan loopText).2 = [] := by decide +kernel
  have hread : parse (Token.scan loopText).1 = (some loopTree, []) := by decide +kernel
  exact @Session.prepared_of_accepted false loopText {} _ _ _ rfl hscan hread rfl rfl

theorem loopTree_breaks : ∃ s,
    (Execution.history ⟨{ clock := 0 }, 9, loopTree⟩)[8]? = some (.ended loopBreak .broken s) := by
  have hbreak : (Execution.history ⟨{ clock := 0 }, 9, loopTree⟩)[8]?.any fun
      | .ended t .broken _ => t = loopBreak
      | _ => false := by
    decide +kernel
  obtain ⟨m, hm, hbroken⟩ := (Option.any_eq_true _ _).1 hbreak
  split at hbroken
  · exact ⟨_, by simpa using of_decide_eq_true hbroken ▸ hm⟩
  · cases hbroken

theorem loopText_contained : ∃ x ∈ Session.executions [.run 9 false loopText] { store := { clock := 0 } },
    ∃ earlier s later, x.history = earlier ++ .ended loopBreak .broken s :: later ∧
      Orderly (progress earlier) (.ended loopBreak .broken s) := by
  obtain ⟨s, hs⟩ := loopTree_breaks
  obtain ⟨earlier, later, hsplit⟩ := List.append_of_mem (List.mem_of_getElem? hs)
  have hx : ⟨{ clock := 0 }, 9, loopTree⟩ ∈
      Session.executions [.run 9 false loopText] { store := { clock := 0 } } := by
    simp [Session.executions, Command.execution?, loopText_prepared]
  exact ⟨_, hx, earlier, s, later, hsplit, (jumps_contained 0 _ hx).2.2 _ _ _ hsplit⟩

end loop

end LoxLang
