import LoxLang.Eval
import LoxLang.Proofs.Running.Rules

namespace LoxLang.Coupling

variable {C : Coupling} {w Γ : List C.Label}

theorem Outcomes.mono {v : List C.Label} {o o' : Outcome} (h : C.Outcomes w o o') (hv : w <+: v) :
    C.Outcomes v o o' := by
  cases h with
  | normal => exact .normal
  | returned ha => exact .returned (ha.mono hv)
  | broken => exact .broken
  | continued => exact .continued

/-- What the two runs find at a mention, and what they do to it. -/
def Accesses (C : Coupling) (Γ : List C.Label) (a : C.Oracle → Addressing) (a' : Addressing) :
    Expr → Expr → Prop
  | .ref name hops, .ref name' hops' | .self name hops, .self name' hops' =>
    ∀ w, C.Runs w Γ C.Values (fun o => (a o).read name hops) (a'.read name' hops')
  | .assign name hops _, .assign name' hops' _ => ∀ w u u', C.Values w u u' →
    C.Runs w Γ (fun _ _ _ => True) (fun o => (a o).write name hops u) (a'.write name' hops' u')
  | _, _ => True

structure Lockstep (C : Coupling) (m : C.Oracle → Evaluator) (m' : Evaluator) : Prop where
  limit : ∀ o, (m o).limit = m'.limit
  eval : ∀ {w Γ e e'}, C.pairs Γ (.expr e) (.expr e') →
    C.Runs w Γ C.Values (fun o => (m o).eval e) (m'.eval e')
  exec : ∀ {w Γ t t'}, C.pairs Γ (.stmt t) (.stmt t') →
    C.Runs w Γ C.Outcomes (fun o => (m o).exec t) (m'.exec t')

theorem bindTo_runs {r r' : Routine} {self self' : Value} {ℓ : C.Label} (hℓ : C.holds ℓ selfName)
    (hr : C.Routines w [ℓ] r r') (hself : C.Values w self self') :
    C.Runs w Γ (fun v r r' => C.Routines v [] r r') (fun _ => r.bindTo self) (r'.bindTo self') := by
  obtain ⟨Γ', hΓ, hp⟩ := hr.paired
  unfold Routine.bindTo
  rw [hr.closure]
  apply (Runs.pushFrame ℓ hΓ (Bindings.Rel.single (C.rename_self ℓ).symm hℓ hself)).bind
  rintro v c _ hv ⟨rfl, hc⟩
  exact .pure fun x hx => ⟨hr.name, rfl, hr.isInitializer, _, hc.mono hx, hp⟩

theorem Routines.arity_eq {inner : List C.Label} {r r' : Routine} (h : C.Routines w inner r r') :
    r'.arity = r.arity := by
  obtain ⟨Γ', -, hp⟩ := h.paired
  have halike := C.alike hp
  unfold Routine.arity
  generalize r.definition = f at halike ⊢
  generalize r'.definition = f' at halike ⊢
  cases halike with
  | lambda ℓ hparams _ => exact hparams.length_eq.symm

theorem Classes.arity_eq {c c' : Class} (h : C.Classes w c c') : c'.arity = c.arity := by
  have hfind := h.methods.find? Function.injective_id initializerName
  unfold Class.arity Class.initializer?
  simp only [id_eq] at hfind
  generalize c.methods.find? initializerName = r at hfind ⊢
  generalize c'.methods.find? initializerName = r' at hfind ⊢
  cases hfind with
  | none => rfl
  | some hr =>
    obtain ⟨ℓ, -, hr⟩ := hr
    exact hr.arity_eq

namespace Lockstep

variable {m : C.Oracle → Evaluator} {m' : Evaluator}

theorem evalAll_runs (h : C.Lockstep m m') {es es' : List Expr}
    (hes : List.Forall₂ (fun e e' => C.pairs Γ (.expr e) (.expr e')) es es') :
    C.Runs w Γ (fun v => List.Forall₂ (C.Values v)) (fun o => (m o).evalAll es) (m'.evalAll es') := by
  induction hes generalizing w with
  | nil => exact .pure fun _ _ => .nil
  | cons he _ ih =>
    apply (h.eval he).bind
    intro v a a' hv ha
    apply ih.bind
    intro x as as' hx has
    exact .pure fun y hy => .cons (ha.mono (hx.trans hy)) (has.imp fun _ _ h => h.mono hy)

theorem sequence_runs (h : C.Lockstep m m') {ss ss' : List Stmt}
    (hss : List.Forall₂ (fun t t' => C.pairs Γ (.stmt t) (.stmt t')) ss ss') :
    C.Runs w Γ C.Outcomes (fun o => (m o).sequence ss) (m'.sequence ss') := by
  induction hss generalizing w with
  | nil => exact .pure fun _ _ => .normal
  | cons ht _ ih =>
    apply (h.exec ht).bind
    intro v o o' hv ho
    cases ho with
    | normal => exact ih
    | returned ha => exact .pure fun _ hx => .returned (ha.mono hx)
    | broken => exact .pure fun _ _ => .broken
    | continued => exact .pure fun _ _ => .continued

theorem block_runs (h : C.Lockstep m m') {Γ' : List C.Label} {outer : Chain} (ℓ : C.Label)
    {b b' : Bindings Value} {ss ss' : List Stmt} (houter : C.Chains w outer Γ') (hb : C.Contents w ℓ b b')
    (hss : List.Forall₂ (fun t t' => C.pairs (ℓ :: Γ') (.stmt t) (.stmt t')) ss ss') :
    C.Runs w Γ C.Outcomes (fun o => (m o).block b outer ss) (m'.block b' outer ss') := by
  apply (Runs.pushFrame ℓ houter hb).bind
  rintro v c _ hv ⟨rfl, hc⟩
  exact (h.sequence_runs hss).within hc

theorem invoke_runs (h : C.Lockstep m m') {r r' : Routine} {as as' : List Value}
    (hr : C.Routines w [] r r') (has : List.Forall₂ (C.Values w) as as') :
    C.Runs w Γ C.Values (fun o => (m o).invoke r as) (m'.invoke r' as') := by
  obtain ⟨Γ', hΓ, hp⟩ := hr.paired
  have halike := C.alike hp
  generalize hd : r.definition = f at halike
  generalize hd' : r'.definition = f' at halike
  cases halike with
  | lambda ℓ hparams hbody =>
    unfold Evaluator.invoke
    rw [hd, hd', hr.closure]
    apply (h.block_runs ℓ hΓ (contents_bindAll hparams has) hbody).bind
    intro v o o' hv ho
    apply Runs.get
    intro x s s' hx hs _
    exact .pure fun y hy =>
      (result_related hs (hr.mono (hv.trans hx)) (ho.mono hx).value).mono hy

theorem instantiate_runs (h : C.Lockstep m m') {c c' : Class} {as as' : List Value}
    (hc : C.Classes w c c') (has : List.Forall₂ (C.Values w) as as') :
    C.Runs w Γ C.Values (fun o => (m o).instantiate c as) (m'.instantiate c' as') := by
  apply (Runs.newObject hc).bind
  intro v self self' hv hself
  have hfind := hc.methods.find? Function.injective_id initializerName
  unfold Class.initializer?
  generalize c.methods.find? initializerName = r at hfind ⊢
  simp only [id_eq] at hfind
  generalize c'.methods.find? initializerName = r' at hfind ⊢
  cases hfind with
  | none => exact value_runs hself
  | some hr =>
    obtain ⟨ℓ, hℓ, hr⟩ := hr
    apply (bindTo_runs hℓ (hr.mono hv) hself).bind
    intro x q q' hx hq
    apply (h.invoke_runs hq (has.imp fun _ _ ha => ha.mono (hv.trans hx))).bind
    intro y _ _ hy _
    exact value_runs (hself.mono (hx.trans hy))

theorem apply_runs (h : C.Lockstep m m') {f f' : Value} {as as' : List Value} (line : Int)
    (hf : C.Values w f f') (has : List.Forall₂ (C.Values w) as as') :
    C.Runs w Γ C.Values (fun o => (m o).apply f as line) (m'.apply f' as' line) := by
  have hchecked : ∀ (n : Nat) (p : C.Oracle → Exec Value) (p' : Exec Value),
      (as.length = n → C.Runs w Γ C.Values p p') →
      C.Runs w Γ C.Values
        (fun o => if as.length = n then Exec.blaming line (p o)
          else Exec.fault (.wrongCount n as.length) line)
        (if as'.length = n then Exec.blaming line p' else Exec.fault (.wrongCount n as'.length) line) := by
    intro n p p' hp
    rw [← has.length_eq]
    by_cases hn : as.length = n
    · simp only [hn, if_true]
      exact (hp hn).blaming line
    · simp only [hn, if_false]
      exact .fault _ _
  unfold Evaluator.apply
  cases hf with
  | native n => exact hchecked _ _ _ fun hn => native_runs n has hn
  | function id hr =>
    simp only [hr.arity_eq]
    exact hchecked _ _ _ fun _ => h.invoke_runs hr has
  | classDef id hc =>
    simp only [hc.arity_eq]
    exact hchecked _ _ _ fun _ => h.instantiate_runs hc has
  | _ => exact .fault _ _

theorem property_runs {a a' : Value} (name : Token) (ha : C.Values w a a') :
    C.Runs w Γ C.Values (fun _ => Evaluator.property a name) (Evaluator.property a' name) := by
  cases ha with
  | @object id c c' hc =>
    apply Runs.get
    intro v s s' hv hs _
    have hfield := (hs.fields id).find? Function.injective_id name.lexeme
    have hmethod := hc.methods.find? Function.injective_id name.lexeme
    simp only [id_eq] at hfield hmethod
    generalize (s.fields id).find? name.lexeme = x at hfield ⊢
    generalize (s'.fields id).find? name.lexeme = x' at hfield ⊢
    generalize c.methods.find? name.lexeme = r at hmethod ⊢
    generalize c'.methods.find? name.lexeme = r' at hmethod ⊢
    cases hfield with
    | some hx => exact value_runs hx
    | none =>
      cases hmethod with
      | none => exact .fault _ _
      | some hr =>
        obtain ⟨ℓ, hℓ, hr⟩ := hr
        apply (bindTo_runs hℓ (hr.mono hv) (.object id (hc.mono hv))).bind
        intro x q q' _ hq
        apply Runs.freshId.bind
        rintro y _ i hy rfl
        exact value_runs (.function i (hq.mono hy))
  | _ => exact .fault _ _

theorem evalRule_runs (h : C.Lockstep m m') {e e' : Expr} (hp : C.pairs Γ (.expr e) (.expr e'))
    (ha : C.Accesses Γ (fun o => (m o).addressing) m'.addressing e e') :
    C.Runs w Γ C.Values (fun o => (m o).evalRule e) (m'.evalRule e') := by
  cases C.alike hp with
  | literal l => exact value_runs ((Values.lookalike C w).ofLiteral l)
  | ref name name' hops hops' => exact ha w
  | self keyword keyword' hops hops' => exact ha w
  | assign name name' hops hops' he =>
    apply (h.eval he).bind
    intro v u u' _ hu
    apply (ha v u u' hu).bind
    intro x _ _ hx _
    exact value_runs (hu.mono hx)
  | group he => exact h.eval he
  | unary op he => exact (h.eval he).bind fun _ _ _ _ hu => unary_runs op hu
  | binary op hl hr =>
    apply (h.eval hl).bind
    intro v a a' _ ha
    apply (h.eval hr).bind
    intro x b b' hx hb
    exact binary_runs op (ha.mono hx) hb
  | logical op hl hr =>
    apply (h.eval hl).bind
    intro v a a' _ ha
    rw [ha.truthy_eq]
    by_cases hop : a.truthy = decide (op.kind = .kwOr)
    · simp only [hop, if_true]
      exact value_runs ha
    · simp only [hop, if_false]
      exact h.eval hr
  | ternary line hc hy hn =>
    apply (h.eval hc).bind
    intro v a a' _ ha
    have hbad : C.Runs v Γ C.Values (fun _ => do Exec.fault (.badSelector (← Exec.text a)) line)
        (do Exec.fault (.badSelector (← Exec.text a')) line) := by
      apply (Runs.text ha).bind
      rintro x _ t _ rfl
      exact .fault _ _
    cases ha with
    | bool b =>
      cases b with
      | true => exact h.eval hy
      | false => exact h.eval hn
    | _ => exact hbad
  | call paren hf hes =>
    apply (h.eval hf).bind
    intro v f f' _ hf
    apply (h.evalAll_runs hes).bind
    intro x as as' hx has
    exact h.apply_runs paren.line (hf.mono hx) has
  | property name ho => exact (h.eval ho).bind fun _ _ _ _ hu => property_runs name hu
  | setProperty name ho hv =>
    apply (h.eval ho).bind
    intro v a a' _ ha
    cases ha with
    | object id hc =>
      apply (h.eval hv).bind
      intro x u u' _ hu
      apply (Runs.setField id name.lexeme hu).bind
      intro y _ _ hy _
      exact value_runs (hu.mono hy)
    | _ => exact .fault _ _
  | function hf =>
    apply Runs.freshId.bind
    rintro v _ i _ rfl
    apply Runs.get
    intro x s s' _ hs hc
    rw [hs.chain]
    exact value_runs (.function i ⟨rfl, rfl, rfl, Γ, hc, hf⟩)
  | list hes =>
    apply (h.evalAll_runs hes).bind
    intro v as as' _ has
    exact .newList has

theorem methods_related {chain : Chain} {ms ms' : List Method} (hchain : C.Chains w chain Γ)
    (hms : List.Forall₂ (fun m m' => m'.name.lexeme = m.name.lexeme ∧ ∃ ℓ, C.holds ℓ selfName ∧
      C.pairs (ℓ :: Γ) (.lambda m.definition) (.lambda m'.definition)) ms ms') :
    Bindings.Rel id (fun _ => True) (C.Methods w) (Evaluator.methodTable chain ms)
      (Evaluator.methodTable chain ms') := by
  suffices hall : ∀ b b', Bindings.Rel id (fun _ => True) (C.Methods w) b b' →
      Bindings.Rel id (fun _ => True) (C.Methods w) (ms.foldl _ b) (ms'.foldl _ b') from
    hall _ _ Bindings.Rel.empty
  induction hms with
  | nil => exact fun b b' hb => hb
  | cons hm _ ih =>
    intro b b' hb
    obtain ⟨hname, ℓ, hℓ, hp⟩ := hm
    apply ih
    simp only [hname]
    exact hb.put Function.injective_id trivial ⟨ℓ, hℓ, rfl, rfl, rfl, Γ, hchain, hp⟩

theorem execRule_runs (h : C.Lockstep m m') {t t' : Stmt} (hp : C.pairs Γ (.stmt t) (.stmt t')) :
    C.Runs w Γ C.Outcomes (fun o => (m o).execRule t) (m'.execRule t') := by
  cases C.alike hp with
  | expression he => exact (h.eval he).bind fun _ _ _ _ _ => .pure fun _ _ => .normal
  | print he =>
    apply (h.eval he).bind
    intro v a a' _ ha
    apply (Runs.text ha).bind
    rintro x _ u _ rfl
    exact (Runs.print u).bind fun _ _ _ _ _ => .pure fun _ _ => .normal
  | varDecl hname hinitial =>
    cases hinitial with
    | none => exact (Runs.define hname .nil).bind fun _ _ _ _ _ => .pure fun _ _ => .normal
    | some he =>
      apply (h.eval he).bind
      intro v a a' _ ha
      exact (Runs.define hname ha).bind fun _ _ _ _ _ => .pure fun _ _ => .normal
  | funDecl hname hf =>
    apply Runs.freshId.bind
    rintro v _ i _ rfl
    apply Runs.get
    intro x s s' _ hs hc
    rw [hs.chain]
    have hr : C.Values x (.function i ⟨_, _, s.chain, false⟩) (.function i ⟨_, _, s.chain, false⟩) :=
      .function i ⟨congrArg some hname.2, rfl, rfl, Γ, hc, hf⟩
    exact (Runs.define hname.1 hr).bind fun _ _ _ _ _ => .pure fun _ _ => .normal
  | classDecl hname hms =>
    apply (Runs.define hname.1 .nil).bind
    intro v _ _ _ _
    apply Runs.freshId.bind
    rintro x _ i _ rfl
    apply Runs.get
    intro y s s' _ hs hc
    rw [hs.chain]
    have hclass : C.Values y (.classDef i ⟨_, Evaluator.methodTable s.chain _⟩)
        (.classDef i ⟨_, Evaluator.methodTable s.chain _⟩) :=
      .classDef i ⟨hname.2, methods_related hc hms⟩
    exact (Runs.define hname.1 hclass).bind fun _ _ _ _ _ => .pure fun _ _ => .normal
  | block ℓ hss =>
    apply Runs.get
    intro v s s' _ hs hc
    rw [hs.chain]
    exact h.block_runs ℓ hc Bindings.Rel.empty hss
  | ifThen hc hy hno =>
    apply (h.eval hc).bind
    intro v a a' _ ha
    rw [ha.truthy_eq]
    cases a.truthy with
    | true => exact h.exec hy
    | false =>
      cases hno with
      | none => exact .pure fun _ _ => .normal
      | some hn => exact h.exec hn
  | whileLoop hc hb hstep =>
    have htest : ∀ w, C.Runs w Γ (fun _ x x' => x' = x)
        (fun o => do return (← (m o).eval _).truthy) (do return (← m'.eval _).truthy) :=
      fun _ => (h.eval hc).bind fun _ _ _ _ ha => .pure fun _ _ => ha.truthy_eq
    simp only [Evaluator.execRule, h.limit]
    cases hstep with
    | none => exact passes_runs (htest w) (h.exec hb) (.pure fun _ _ => trivial) _
    | some hs =>
      have hunit : ∀ v, C.Runs v Γ (fun _ _ _ => True) (fun _ => pure ()) (pure () : Exec Unit) :=
        fun _ => .pure fun _ _ => trivial
      have hdiscard := (h.exec hs (w := w)).bind fun v _ _ _ _ => hunit v
      exact passes_runs (htest w) (h.exec hb) hdiscard _
  | ret keyword keyword' hvalue =>
    cases hvalue with
    | none => exact .pure fun _ _ => .returned .nil
    | some he =>
      exact (h.eval he).bind fun _ _ _ _ ha => .pure fun _ hv => .returned (ha.mono hv)
  | breakLoop => exact .pure fun _ _ => .broken
  | continueLoop => exact .pure fun _ _ => .continued

end Lockstep

variable {a : C.Oracle → Addressing} {a' : Addressing}

theorem evaluate_lockstep
    (h : ∀ {Γ e e'}, C.pairs Γ (.expr e) (.expr e') → C.Accesses Γ a a' e e') (n : Nat) :
    C.Lockstep (fun o => ⟨a o, n, evaluate (a o) n, execute (a o) n⟩)
      ⟨a', n, evaluate a' n, execute a' n⟩ := by
  induction n with
  | zero =>
    refine ⟨fun _ => rfl, fun _ => ?_, fun _ => ?_⟩
    · simp only [evaluate]
      exact .endless
    · simp only [execute]
      exact .endless
  | succ n ih =>
    refine ⟨fun _ => rfl, fun hp => ?_, fun hp => ?_⟩
    · simp only [evaluate]
      exact ih.evalRule_runs hp (h hp)
    · simp only [execute]
      exact ih.execRule_runs hp

theorem runProgram_runs (h : ∀ {Γ e e'}, C.pairs Γ (.expr e) (.expr e') → C.Accesses Γ a a' e e')
    (n : Nat) {ss ss' : List Stmt}
    (hss : List.Forall₂ (fun t t' => C.pairs [] (.stmt t) (.stmt t')) ss ss') :
    C.Runs w [] (fun _ _ _ => True) (fun o => runProgram (a o) n ss) (runProgram a' n ss') := by
  induction hss generalizing w with
  | nil => exact .pure fun _ _ => trivial
  | cons ht _ ih => exact ((evaluate_lockstep h n).exec ht).bind fun _ _ _ _ _ => ih

end LoxLang.Coupling
