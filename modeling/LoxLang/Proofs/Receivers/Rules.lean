import LoxLang.Proofs.History.Rules
import LoxLang.Proofs.Receivers.Calls
import LoxLang.Proofs.Receivers.Loyal

namespace LoxLang

open Traced (act)

variable {x y : Store × List Moment} {Δ : Context} {a : Option Value}

/-- A place in a program on a chain that fits it, and what `this` is there. -/
structure Footing (Δ : Context) (a : Option Value) (x : Store × List Moment) : Prop where
  safe : Safe x
  aligned : x.1.scene.Aligned Δ.seen x.1.chain a

theorem Footing.self? (h : Footing Δ a x) : x.1.self? = a := h.aligned.self.find?

theorem Footing.onward (h : Footing Δ a x) (hy : Onward x y) : Footing Δ a y :=
  ⟨hy.safe, hy.chain ▸ h.aligned.mono hy.later⟩

/-- What the evaluation of an expression inside other nodes leaves behind. -/
structure Gave (e : Expr) (x y : Store × List Moment) (v : Value) : Prop where
  known : v.Known y.1.scene
  sites : sites y.2 = Site.give v y.1 (sites x.2)
  last : ∃ past, y.2 = past ++ [.gave e v y.1]

/-- What the execution of a statement inside other nodes leaves behind. -/
structure Did (a : Option Value) (x y : Store × List Moment) (o : Outcome) : Prop where
  known : o.value.Known y.1.scene
  sites : sites y.2 = Site.enter a (sites x.2)

structure Tracer.Loyal (m : Tracer) : Prop where
  eval : ∀ {x Δ a e}, Footing Δ a x → Resolved Δ (.expr e) → (sites x.2).head?.map (·.store.self?) = some a →
    LoxLang.Loyal x (Gave e x) (m.eval e)
  exec : ∀ {x Δ a t}, Footing Δ a x → Resolved Δ (.stmt t) → x.1.scene.Plain x.1.chain.frame →
    Begun x.1.scene a (sites x.2) (.stmt t) → LoxLang.Loyal x (Did a x) (m.exec t)

section bindings

theorem mem_of_contains_bindAll {params : List Token} {args : List Value} {name : String}
    (h : (bindAll params args).contains name = true) : name ∈ params.map Token.lexeme := by
  rw [bindAll_eq] at h
  suffices hall : ∀ (xs : List (Token × Value)) (b : Bindings Value),
      (xs.foldl (fun b x => b.put x.1.lexeme x.2) b).contains name = true →
        name ∈ xs.map (fun x => x.1.lexeme) ∨ b.contains name = true by
    obtain ⟨x, hx, rfl⟩ := List.mem_map.1 ((hall _ _ h).resolve_right (by simp))
    exact List.mem_map_of_mem (List.of_mem_zip hx).1
  intro xs
  induction xs with
  | nil => exact fun b hb => .inr hb
  | cons x xs ih =>
    intro b hb
    obtain hmem | hheld := ih _ hb
    · exact .inl (List.mem_cons_of_mem _ hmem)
    · rw [Bindings.contains_put, Bool.or_eq_true, decide_eq_true_eq] at hheld
      obtain rfl | hheld := hheld
      · exact .inl (by simp)
      · exact .inr hheld

theorem contains_bindAll_self {f : Lambda} {Δ : Context} (hf : Resolved Δ (.lambda f)) (args : List Value) :
    (bindAll f.params args).contains selfName = false := by
  have hparams : ∀ p ∈ f.params, p.lexeme ≠ selfName := ((resolved_iff _ _).1 hf).1.1
  rw [← Bool.not_eq_true]
  intro hheld
  obtain ⟨p, hp, hname⟩ := List.mem_map.1 (mem_of_contains_bindAll hheld)
  exact hparams p hp hname

theorem paramsSeen_self {f : Lambda} {Δ : Context} (hf : Resolved Δ (.lambda f)) :
    (paramsSeen f.params).contains selfName = false := by
  have hparams : ∀ p ∈ f.params, p.lexeme ≠ selfName := ((resolved_iff _ _).1 hf).1.1
  rw [Bindings.contains, Context.paramsSeen_find?, if_neg]
  · rfl
  intro hmem
  obtain ⟨p, hp, hname⟩ := List.mem_map.1 hmem
  exact hparams p hp hname

end bindings

theorem Site.Runs.mono {w v : Scene} {call : Site} (h : call.Runs w a) (hv : w.Later v) : call.Runs v a := by
  cases h with
  | function hcallee ha => exact .function hcallee (ha.mono hv)
  | initializer hcallee ha hnew => exact .initializer hcallee ha hnew

theorem Begun.mono {w v : Scene} {σ : List Site} {j : Node} (h : Begun w a σ j) (hv : w.Later v) : Begun v a σ j := by
  cases h with
  | top hσ ha => exact .top hσ ha
  | inside hσ hj ha => exact .inside hσ hj ha
  | body hσ hcall hj hruns => exact .body hσ hcall hj (hruns.mono hv)

theorem Routine.bindTo_loyal (hx : Safe x) {r : Routine} {id : Nat} {c : Class} (hr : r.KnownMethod x.1.scene)
    (hself : (Value.object id c).Known x.1.scene) :
    Loyal x (Unrecorded x fun w b => b = { r with closure := .link x.1.frames.size r.closure } ∧ b.Known w ∧
      w.frames.frame x.1.frames.size = ⟨[(selfName, .object id c)]⟩ ∧
      w.Self b.closure (some (.object id c))) (act (r.bindTo (.object id c))) := by
  have hcontents : ∀ name v, (⟨[(selfName, .object id c)]⟩ : Bindings Value).find? name = some v →
      v.Known x.1.scene := by
    intro name v hv
    by_cases hname : name = selfName
    · rw [hname] at hv
      exact Option.some.inj hv ▸ hself
    · simp [Bindings.find?, List.lookup_cons, beq_eq_false_iff_ne.2 hname] at hv
  have hpush := Loyal.pushFrame hx r.closure hcontents fun _ => ⟨id, c, rfl⟩
  refine hpush.act_bind fun y chain hy => ?_
  rintro ⟨hpast, rfl, -, hframe⟩
  have hbound := (hr.mono hy.later).bind (f := x.1.frames.size) hframe
  exact .pure hy.safe ⟨hpast, rfl, hbound.1, hframe, hbound.2⟩

theorem property_loyal (hx : Safe x) (name : Token) {a : Value} (ha : a.Known x.1.scene) :
    Loyal x (fun y v => y.2 = x.2 ∧ v.Known y.1.scene ∧ Fetched a name x.1 y.1 v)
      (act (Evaluator.property a name)) := by
  unfold Evaluator.property
  cases ha with
  | @object id c hid hc =>
    rw [Traced.act_bind]
    refine .get ?_
    cases hfield : (x.1.fields id).find? name.lexeme with
    | some v => exact .pure hx ⟨rfl, hx.fields _ _ _ hfield, .field rfl hfield⟩
    | none =>
      cases hmethod : c.methods.find? name.lexeme with
      | none => exact .fault hx _ _
      | some r =>
        obtain ⟨hr, hinit⟩ := hc _ _ hmethod
        refine (r.bindTo_loyal hx hr (.object hid hc)).act_bind fun y b hy => ?_
        rintro ⟨hpast, rfl, hknown, hframe, hself⟩
        refine (Loyal.freshId hy.safe).act_bind fun z i hz => ?_
        rintro ⟨hpast', -⟩
        have hframe' : z.1.scene.Binds x.1.frames.size (.object id c) := hz.later.binds hframe
        exact .pure hz.safe ⟨hpast'.trans hpast, .function i (hknown.mono hz.later),
          .method rfl hfield hmethod hinit rfl hframe' (hself.mono hz.later)⟩
  | _ => exact .fault hx _ _

theorem Resolved.declares_ne {t : Stmt} (ht : Resolved Δ (.stmt t)) : ∀ name ∈ t.declares, name ≠ selfName := by
  have hregular : (Node.stmt t).Regular := ((resolved_iff Δ _).1 ht).1.1
  intro name hname
  cases t with
  | varDecl | funDecl | classDecl =>
    rw [List.mem_singleton.1 hname]
    exact hregular
  | _ => cases hname

structure Ran (a : Option Value) (x y : Store × List Moment) (o : Outcome) : Prop where
  known : o.value.Known y.1.scene
  sites : sites y.2 = sites x.2 ∨ sites y.2 = Site.enter a (sites x.2)

namespace Tracer.Loyal

variable {m : Tracer} (h : m.Loyal)

include h

theorem evalAll {P : Store → List Site → Prop} (es : List Expr) (hx : Footing Δ a x)
    (hes : ∀ e ∈ es, Resolved Δ (.expr e)) (hself : ∀ s σ, P s σ → σ.head?.map (·.store.self?) = some a)
    (hgive : ∀ s s' v σ, P s σ → P s' (Site.give v s' σ)) (hP : P x.1 (sites x.2)) :
    LoxLang.Loyal x (fun y vs => (∀ v ∈ vs, v.Known y.1.scene) ∧ P y.1 (sites y.2)) (m.evalAll es) := by
  induction es generalizing x with
  | nil => exact .pure hx.safe ⟨fun v hv => (nomatch hv), hP⟩
  | cons e es ih =>
    rw [List.forall_mem_cons] at hes
    refine (h.eval hx hes.1 (hself _ _ hP)).bind fun y v hy hv => ?_
    have hP' : P y.1 (sites y.2) := by
      rw [hv.sites]
      exact hgive _ _ _ _ hP
    refine (ih (hx.onward hy) hes.2 hP').bind fun z vs hz => ?_
    rintro ⟨hvs, hP''⟩
    exact .pure hz.safe ⟨List.forall_mem_cons.2 ⟨hv.known.mono hz.later, hvs⟩, hP''⟩

theorem sequence {ss : List Stmt} (hx : Footing Δ a x) (hss : ∀ k ∈ Δ.sequence ss, Resolved k.1 k.2)
    (hplain : x.1.scene.Plain x.1.chain.frame) (hbegun : ∀ t, Begun x.1.scene a (sites x.2) (.stmt t)) :
    LoxLang.Loyal x (Ran a x) (m.sequence ss) := by
  induction ss generalizing Δ x with
  | nil => exact .pure hx.safe ⟨.nil, .inl rfl⟩
  | cons t ts ih =>
    rw [Context.sequence, List.forall_mem_cons] at hss
    refine (h.exec hx hss.1 hplain (hbegun t)).bind fun y o hy ho => ?_
    have hplain' : y.1.scene.Plain y.1.chain.frame := hy.chain ▸ hy.later.plain hplain
    cases o with
    | normal =>
      have hfooting := hx.onward hy
      have hnext : Footing (t.after Δ) a y :=
        ⟨hfooting.safe, Context.aligned_after hfooting.aligned hplain' (Resolved.declares_ne hss.1)⟩
      have hbegun' : ∀ u, Begun y.1.scene a (sites y.2) (.stmt u) := fun u => ho.sites ▸ ((hbegun t).mono hy.later).enter
      refine (ih hnext hss.2 hplain' hbegun').weaken fun z o' _ ho' => ⟨ho'.known, .inr ?_⟩
      obtain hsame | hentered := ho'.sites
      · exact hsame.trans ho.sites
      · rw [hentered, ho.sites, Site.enter_enter]
    | _ => exact .pure hy.safe ⟨ho.known, .inr ho.sites⟩

theorem block {Γ : Context} {b : Bindings Bool} {l : List (Bindings Bool)} {contents : Bindings Value} {outer : Chain}
    (ss : List Stmt) (hx : Safe x) (hseen : Γ.seen = b :: l) (hb : b.contains selfName = false)
    (hcontents : contents.contains selfName = false)
    (hknown : ∀ name v, contents.find? name = some v → v.Known x.1.scene) (houter : x.1.scene.Aligned l outer a)
    (hss : ∀ k ∈ Γ.sequence ss, Resolved k.1 k.2) (hbegun : ∀ t, Begun x.1.scene a (sites x.2) (.stmt t)) :
    LoxLang.Loyal x (Ran a x) (m.block contents outer ss) := by
  have hpush := Loyal.pushFrame hx outer hknown fun hself => absurd (hcontents.symm.trans hself) Bool.false_ne_true
  refine hpush.bind fun y c hy => ?_
  rintro ⟨hpast, rfl, hsize, hframe⟩
  have hplain : y.1.scene.Plain x.1.frames.size := ⟨hsize, by rw [hframe, hcontents]⟩
  have hinner : Footing Γ a ({ y.1 with chain := .link x.1.frames.size outer }, y.2) := by
    refine ⟨hy.safe.congr rfl rfl rfl, ?_⟩
    rw [hseen]
    exact .plain hb hplain (houter.mono hy.later)
  refine (h.sequence hinner hss hplain fun t => ?_).within fun z o hz => ⟨hz.known, ?_⟩
  · rw [hpast]
    exact (hbegun t).mono hy.later
  · rw [← hpast]
    exact hz.sites

/-- A call of a function. An initializer gives the object in its innermost frame. -/
theorem invoke {r : Routine} {as : List Value} {call : Site} {σ : List Site} (hx : Safe x) (hr : r.Known x.1.scene)
    (has : ∀ v ∈ as, v.Known x.1.scene) (hsites : sites x.2 = call :: σ) (hcall : call.node.isCall = true)
    (hruns : ∀ a, x.1.scene.Self r.closure a → call.Runs x.1.scene a) :
    LoxLang.Loyal x (fun y v => v.Known y.1.scene ∧
      (sites y.2 = call :: σ ∨ ∃ a, x.1.scene.Self r.closure a ∧ sites y.2 = { call with self := a } :: σ) ∧
      (r.isInitializer = true → ∃ f outer, r.closure = .link f outer ∧ y.1.frames.frame f = ⟨[(selfName, v)]⟩))
      (m.invoke r as) := by
  obtain ⟨Δ, a, hresolved, haligned⟩ := hr.placed
  have hbody := h.block (Γ := (Δ.enter (.function r.definition) (paramsSeen r.definition.params)).withLoop false)
    r.definition.body hx rfl (paramsSeen_self hresolved) (contains_bindAll_self hresolved as)
    (fun name v hv => has v (mem_of_bindAll hv)) haligned ((resolved_iff Δ _).1 hresolved).2
    fun t => .body hsites hcall rfl (hruns a haligned.self)
  refine hbody.bind fun y o hy ho => .get (.pure hy.safe ?_)
  have hsites' : sites y.2 = call :: σ ∨ ∃ a, x.1.scene.Self r.closure a ∧ sites y.2 = { call with self := a } :: σ := by
    obtain hsame | hentered := ho.sites
    · exact .inl (hsame.trans hsites)
    · refine .inr ⟨a, haligned.self, ?_⟩
      rw [hentered, hsites]
      simp [Site.enter, Site.atCall, hcall]
  unfold Routine.result
  cases hinit : r.isInitializer with
  | false => exact ⟨by simpa using ho.known, hsites', fun hfalse => absurd hfalse Bool.false_ne_true⟩
  | true =>
    obtain ⟨f, outer, self, hclosure, hbinds⟩ := hr.object hinit
    have hframe : y.1.frames.frame f = ⟨[(selfName, self)]⟩ := hy.later.binds hbinds
    have hfind : (y.1.frames.frame r.closure.frame).find? selfName = some self := by
      rw [hclosure, Chain.frame, hframe]
      rfl
    simp only [if_true, hfind, Option.getD_some]
    exact ⟨hy.safe.frames _ _ _ hfind, hsites', fun _ => ⟨f, outer, hclosure, hframe⟩⟩

/-- A call of a class gives a new object, which is `this` in the initializer. -/
theorem instantiate {i : Nat} {c : Class} {as : List Value} {call : Site} {σ : List Site} (hx : Safe x)
    (hc : c.Known x.1.scene) (has : ∀ v ∈ as, v.Known x.1.scene) (hsites : sites x.2 = call :: σ)
    (hcall : call.node.isCall = true) (hcallee : call.callee = some (.classDef i c))
    (hready : call.ready.objects.size = x.1.objects.size) (hself : call.self = none) :
    LoxLang.Loyal x (fun y v => v.Known y.1.scene ∧
      ∃ b, sites y.2 = { call with self := b } :: σ ∧ Called { call with self := b } y.1 v) (m.instantiate c as) := by
  refine (Loyal.newObject hx hc).bind fun y self hy => ?_
  rintro ⟨hpast, rfl, hknown⟩
  -- the object is in every later store
  have hcalled : ∀ {z b}, Onward y z → (∀ a, b = some a → a = .object x.1.objects.size c) →
      Called { call with self := b } z.1 (.object x.1.objects.size c) := by
    intro z b hz hb
    have hlt : x.1.objects.size < y.1.objects.size := by
      cases hknown with
      | object hid => exact hid
    refine ⟨fun i' c' hcallee' => ?_, fun i' r' hcallee' => ?_⟩
    · obtain ⟨rfl, rfl⟩ : i = i' ∧ c = c' := by simpa [hcallee] using hcallee'
      exact ⟨_, rfl, Nat.le_of_eq hready, Nat.lt_of_lt_of_le hlt hz.later.objects, hb⟩
    · simp [hcallee] at hcallee'
  have hnone : ∀ {τ}, τ = call :: σ → τ = { call with self := none } :: σ := by
    rintro τ rfl
    rw [← hself]
  have hsites' : sites y.2 = call :: σ := by rw [hpast, hsites]
  cases hinit : c.initializer? with
  | none => exact .pure hy.safe ⟨hknown, none, hnone hsites', hcalled (.refl hy.safe) nofun⟩
  | some r =>
    obtain ⟨hr, -⟩ := hc _ _ hinit
    refine (r.bindTo_loyal hy.safe (hr.mono hy.later) hknown).bind fun z bound hz => ?_
    rintro ⟨hpast', rfl, hbound, -, hselfz⟩
    have hinvoke := h.invoke hz.safe hbound (fun v hv => (has v hv).mono (hy.trans hz).later)
      (by rw [hpast', hsites']) hcall fun a ha => .initializer hcallee (ha.eq hselfz (.inl (.refl _))) (Nat.le_of_eq hready)
    refine hinvoke.bind fun u v hu => ?_
    rintro ⟨-, hsame | ⟨a, ha, hentered⟩, -⟩
    · exact .pure hu.safe ⟨hknown.mono (hz.trans hu).later, none, hnone hsame, hcalled (hz.trans hu) nofun⟩
    · obtain rfl := ha.eq hselfz (.inl (.refl _))
      refine .pure hu.safe ⟨hknown.mono (hz.trans hu).later, _, hentered, hcalled (hz.trans hu) fun b hb => ?_⟩
      exact (Option.some.inj hb).symm

theorem apply {callee : Value} {as : List Value} {call : Site} {σ : List Site} (line : Int) (hx : Safe x)
    (hknown : callee.Known x.1.scene) (has : ∀ v ∈ as, v.Known x.1.scene) (hsites : sites x.2 = call :: σ)
    (hcall : call.node.isCall = true) (hcallee : call.callee = some callee) (hready : call.ready = x.1)
    (hself : call.self = none) :
    LoxLang.Loyal x (fun y v => v.Known y.1.scene ∧
      ∃ b, sites y.2 = { call with self := b } :: σ ∧ Called { call with self := b } y.1 v)
      (m.apply callee as line) := by
  have hchecked : ∀ {P arity p}, (as.length = arity → LoxLang.Loyal x P p) →
      LoxLang.Loyal x P (checked arity as line p) := by
    intro P arity p hp
    unfold checked
    split
    · exact (hp ‹_›).blaming line
    · exact .fault hx _ _
  unfold Tracer.apply
  cases hknown with
  | native n =>
    refine hchecked fun hcount => ?_
    have hacts := Acts.native (Value.Known.lookalike x.1.scene) (Value.Itself.forall₂ has) n hcount
    refine (Loyal.value_of_acts hx hacts).weaken fun y v _ => ?_
    rintro ⟨hpast, hv⟩
    refine ⟨hv, none, by rw [hpast, hsites, ← hself], fun i c h => ?_, fun i r h => ?_⟩
    · simp [hcallee] at h
    · simp [hcallee] at h
  | @function i r hr =>
    refine hchecked fun _ => ?_
    refine (h.invoke hx hr has hsites hcall fun a ha => .function hcallee ha).weaken fun y v _ => ?_
    rintro ⟨hv, hentered, hresult⟩
    have hcalled : ∀ b, Called { call with self := b } y.1 v := by
      refine fun b => ⟨fun i' c' h => ?_, fun i' r' h => ?_⟩
      · simp [hcallee] at h
      · obtain ⟨rfl, rfl⟩ : i = i' ∧ r = r' := by simpa [hcallee] using h
        exact hresult
    obtain hsame | ⟨a, -, hentered⟩ := hentered
    · exact ⟨hv, none, by rw [hsame, ← hself], hcalled none⟩
    · exact ⟨hv, a, hentered, hcalled a⟩
  | classDef i hc =>
    exact hchecked fun _ => h.instantiate hx hc has hsites hcall hcallee (by rw [hready]) hself
  | _ => exact .fault hx _ _

theorem evalRule {e : Expr} {s₀ : Store} {σ : List Site} (hx : Footing Δ a x) (he : Resolved Δ (.expr e))
    (hsites : sites x.2 = { node := .expr e, store := s₀ } :: σ) (hself : s₀.self? = a) :
    LoxLang.Loyal x (fun y v => v.Known y.1.scene ∧ (sites y.2).tail = σ ∧ Given y.2 y.1 v e) (m.evalRule e) := by
  obtain ⟨⟨hregular, hlegal⟩, hbelow⟩ := (resolved_iff Δ _).1 he
  have hhead : ∀ {y : Store × List Moment}, sites y.2 = sites x.2 → (sites y.2).head?.map (·.store.self?) = some a := by
    intro y hy
    rw [hy, hsites, ← hself]
    rfl
  have hchild : ∀ {y : Store × List Moment} {k}, Onward x y → sites y.2 = sites x.2 →
      (Δ, .expr k) ∈ (Node.expr e).children Δ → (Node.expr e).isCall = false →
      LoxLang.Loyal y (fun z v => v.Known z.1.scene ∧ sites z.2 = sites x.2 ∧ ∃ past, z.2 = past ++ [.gave k v z.1])
        (m.eval k) := by
    intro y k hy hsame hk hcall
    refine (h.eval (hx.onward hy) (hbelow _ hk) (hhead hsame)).weaken fun z v _ hv => ⟨hv.known, ?_, hv.last⟩
    rw [hv.sites, hsame, hsites]
    simp [Site.give, Site.atCall, hcall]
  have hdone : ∀ {y : Store × List Moment} {v}, v.Known y.1.scene → sites y.2 = sites x.2 → Given y.2 y.1 v e →
      v.Known y.1.scene ∧ (sites y.2).tail = σ ∧ Given y.2 y.1 v e := by
    intro y v hv hsame hgiven
    refine ⟨hv, ?_, hgiven⟩
    rw [hsame, hsites]
    rfl
  have hx' : Onward x x := .refl hx.safe
  cases e with
  | literal l => exact .pure hx.safe (hdone ((Value.Known.lookalike _).ofLiteral l).2 rfl trivial)
  | ref name hops =>
    exact (Loyal.read hx.safe name hops).weaken fun y v _ hv => hdone hv.2 (by rw [hv.1]) trivial
  | self keyword hops =>
    refine (Loyal.read_self hx.safe hregular hx.aligned (by rw [hlegal.2, hregular])).weaken fun y v _ => ?_
    rintro ⟨hpast, hv, ha⟩
    refine hdone hv (by rw [hpast]) ⟨_, _, by rw [hpast, hsites], hself.trans ha⟩
  | assign name hops e =>
    refine (hchild hx' rfl (by simp [Node.children]) rfl).bind fun y v hy hv => ?_
    have hy' := hx.onward hy
    refine (Loyal.write hy.safe hregular hlegal hy'.aligned hv.1).bind fun z _ hz hpast => ?_
    exact .pure hz.safe (hdone (hv.1.mono hz.later) (by rw [hpast.1, hv.2.1]) trivial)
  | group e =>
    exact (hchild hx' rfl (by simp [Node.children]) rfl).weaken fun y v _ hv => hdone hv.1 hv.2.1 trivial
  | unary op e =>
    refine (hchild hx' rfl (by simp [Node.children]) rfl).bind fun y v hy hv => ?_
    refine (Loyal.value_of_acts hy.safe (Acts.unary (Value.Known.lookalike _) rfl ⟨rfl, hv.1⟩)).weaken fun z u _ hu => ?_
    exact hdone hu.2 (by rw [hu.1, hv.2.1]) trivial
  | binary l op r =>
    refine (hchild hx' rfl (by simp [Node.children]) rfl).bind fun y v hy hv => ?_
    refine (hchild hy hv.2.1 (by simp [Node.children]) rfl).bind fun z u hz hu => ?_
    refine (Loyal.value_of_acts hz.safe (Acts.binary (Value.Known.lookalike _) rfl ⟨rfl, hv.1.mono hz.later⟩
      ⟨rfl, hu.1⟩)).weaken fun z' w _ hw => ?_
    exact hdone hw.2 (by rw [hw.1, hu.2.1]) trivial
  | logical l op r =>
    refine (hchild hx' rfl (by simp [Node.children]) rfl).bind fun y v hy hv => ?_
    split
    · exact .pure hy.safe (hdone hv.1 hv.2.1 trivial)
    · exact (hchild hy hv.2.1 (by simp [Node.children]) rfl).weaken fun z u _ hu => hdone hu.1 hu.2.1 trivial
  | ternary c yes no line =>
    refine (hchild hx' rfl (by simp [Node.children]) rfl).bind fun y v hy hv => ?_
    have hbranch : ∀ {k}, (Δ, .expr k) ∈ (Node.expr (.ternary c yes no line)).children Δ →
        LoxLang.Loyal y (fun z u => u.Known z.1.scene ∧ (sites z.2).tail = σ ∧ Given z.2 z.1 u (.ternary c yes no line))
          (m.eval k) :=
      fun hk => (hchild hy hv.2.1 hk rfl).weaken fun z u _ hu => hdone hu.1 hu.2.1 trivial
    split
    · exact hbranch (by simp [Node.children])
    · exact hbranch (by simp [Node.children])
    · exact (Loyal.text hy.safe hv.1).act_bind fun z _ hz _ => .fault hz.safe _ _
  | call f paren args =>
    refine (h.eval hx (hbelow (Δ, .expr f) (by simp [Node.children])) (hhead rfl)).bind fun y callee hy hcallee => ?_
    have hsites' : sites y.2 = ⟨.expr (.call f paren args), s₀, some callee, y.1, none⟩ :: σ := by
      rw [hcallee.sites, hsites]
      rfl
    have hargs := h.evalAll (P := fun s τ => τ = ⟨.expr (.call f paren args), s₀, some callee, s, none⟩ :: σ) args
      (hx.onward hy) (fun k hk => hbelow (Δ, .expr k) (by simp [Node.children, hk])) (by
        rintro s _ rfl
        rw [← hself]
        rfl) (by
        rintro s s' v _ rfl
        rfl) hsites'
    refine hargs.bind fun z vs hz => ?_
    rintro ⟨hvs, hsites''⟩
    refine (h.apply paren.line hz.safe (hcallee.known.mono hz.later) hvs hsites'' rfl rfl rfl rfl).weaken fun u v _ => ?_
    rintro ⟨hv, b, hsame, hcalled⟩
    exact ⟨hv, by rw [hsame, List.tail_cons], _, _, hsame, rfl, hcalled⟩
  | property o name =>
    refine (hchild hx' rfl (by simp [Node.children]) rfl).bind fun y v hy hv => ?_
    refine (property_loyal hy.safe name hv.1).weaken fun z u _ => ?_
    rintro ⟨hpast, hu, hfetched⟩
    obtain ⟨past, hlast⟩ := hv.2.2
    exact hdone hu (by rw [hpast, hv.2.1]) ⟨past, v, y.1, by rw [hpast, hlast], hfetched⟩
  | setProperty o name e =>
    refine (hchild hx' rfl (by simp [Node.children]) rfl).bind fun y v hy hv => ?_
    split
    · refine (hchild hy hv.2.1 (by simp [Node.children]) rfl).bind fun z u hz hu => ?_
      refine (Loyal.setField hz.safe _ _ hu.1).bind fun z' _ hz' hpast => ?_
      exact .pure hz'.safe (hdone (hu.1.mono hz'.later) (by rw [hpast.1, hu.2.1]) trivial)
    · exact .fault hy.safe _ _
  | function f =>
    refine (Loyal.freshId hx.safe).bind fun y id hy => ?_
    rintro ⟨hpast, -⟩
    have hy' := hx.onward hy
    have hplain : ∀ {P : Prop}, false = true → P := fun hinit => absurd hinit Bool.false_ne_true
    refine .get (.pure hy.safe (hdone (.function id ⟨⟨Δ.withRole .function, a, ?_, hy'.aligned⟩, hplain⟩)
      (by rw [hpast]) ?_))
    · exact hbelow (Δ.withRole .function, .lambda f) (by simp [Node.children])
    · exact ⟨_, _, _, _, by rw [hpast, hsites], rfl, by rw [hself]; exact hy'.aligned.self⟩
  | list es =>
    have hitems := h.evalAll (P := fun _ τ => τ = { node := .expr (.list es), store := s₀ } :: σ) es hx
      (fun k hk => hbelow (Δ, .expr k) (by simp [Node.children, hk])) (by
        rintro s _ rfl
        rw [← hself]
        rfl) (by
        rintro s s' v _ rfl
        rfl) hsites
    refine hitems.bind fun y vs hy => ?_
    rintro ⟨hvs, hsites'⟩
    refine (Loyal.newList hy.safe hvs).weaken fun z v _ hv => hdone hv.2 ?_ trivial
    rw [hv.1, hsites', hsites]
  | ofStmt t => exact hregular.elim
  | stub s => exact hregular.elim

omit h in
theorem stopped {e : Expr} {s₀ : Store} {σ : List Site} {stop : Stop} (hx : Footing Δ a x)
    (he : Resolved Δ (.expr e)) (hsites : sites x.2 = { node := .expr e, store := s₀ } :: σ) (hself : s₀.self? = a)
    (hstop : m.evalRule e x = .error stop y) : (Moment.stopped (.expr e) stop y.1).Apt y.2 := by
  obtain ⟨⟨hregular, hlegal⟩, -⟩ := (resolved_iff Δ _).1 he
  cases e with
  | self keyword hops =>
    obtain rfl : hops = Scopes.hops? selfName Δ.seen := by rw [hlegal.2, hregular]
    have hsame : y.2 = x.2 := by
      change act (Addressing.byDistance.read keyword (Scopes.hops? selfName Δ.seen)) x = _ at hstop
      unfold act at hstop
      split at hstop <;> cases hstop
      rfl
    refine .inr ⟨_, _, by rw [hsame, hsites], hself.trans ?_⟩
    cases a with
    | none => rfl
    | some self => cases hstop.symm.trans (Loyal.read_self_eq hregular hx.aligned)
  | _ => trivial

omit h in
theorem passes {test : Traced Bool} {body : Traced Outcome} {next : Traced Unit} {σ : List Site}
    (htest : ∀ y, Onward x y → sites y.2 = σ → LoxLang.Loyal y (fun z _ => sites z.2 = σ) test)
    (hbody : ∀ y, Onward x y → sites y.2 = σ →
      LoxLang.Loyal y (fun z o => o.value.Known z.1.scene ∧ sites z.2 = σ) body)
    (hnext : ∀ y, Onward x y → sites y.2 = σ → LoxLang.Loyal y (fun z _ => sites z.2 = σ) next) (n : Nat)
    (hy : Onward x y) (hsites : sites y.2 = σ) :
    LoxLang.Loyal y (fun z o => o.value.Known z.1.scene ∧ sites z.2 = σ) (Traced.passes test body next n) := by
  induction n generalizing y with
  | zero => exact .endless hy.safe
  | succ n ih =>
    refine (htest y hy hsites).bind fun z go hz hsites => ?_
    have hz' := hy.trans hz
    cases go with
    | false => exact .pure hz'.safe ⟨.nil, hsites⟩
    | true =>
      refine (hbody z hz' hsites).bind fun u o hu => ?_
      rintro ⟨ho, hsites⟩
      have hu' := hz'.trans hu
      cases o with
      | broken => exact .pure hu'.safe ⟨.nil, hsites⟩
      | returned v => exact .pure hu'.safe ⟨ho, hsites⟩
      | normal | continued =>
        exact (hnext u hu' hsites).bind fun w _ hw hsites => ih (hu'.trans hw) hsites

theorem execRule {t : Stmt} {s₀ : Store} {σ : List Site} (hx : Footing Δ a x) (ht : Resolved Δ (.stmt t))
    (hplain : x.1.scene.Plain x.1.chain.frame) (hsites : sites x.2 = { node := .stmt t, store := s₀ } :: σ)
    (hself : s₀.self? = a) :
    LoxLang.Loyal x (fun y o => o.value.Known y.1.scene ∧ (sites y.2).tail = σ ∧ (Moment.ended t o y.1).Apt y.2)
      (m.execRule t) := by
  obtain ⟨⟨hregular, -⟩, hbelow⟩ := (resolved_iff Δ _).1 ht
  have hchild : ∀ {y : Store × List Moment} {Γ : Context} {k}, Footing Γ a y → sites y.2 = sites x.2 →
      (Γ, .expr k) ∈ (Node.stmt t).children Δ →
      LoxLang.Loyal y (fun z v => v.Known z.1.scene ∧ sites z.2 = sites x.2) (m.eval k) := by
    intro y Γ k hy hsame hk
    have hhead : (sites y.2).head?.map (·.store.self?) = some a := by
      rw [hsame, hsites, ← hself]
      rfl
    refine (h.eval hy (hbelow _ hk) hhead).weaken fun z v _ hv => ⟨hv.known, ?_⟩
    rw [hv.sites, hsame, hsites]
    rfl
  have hbelow' : ∀ {y : Store × List Moment} {Γ : Context} {u}, Footing Γ a y → y.1.scene.Plain y.1.chain.frame →
      sites y.2 = sites x.2 → (Γ, .stmt u) ∈ (Node.stmt t).children Δ →
      LoxLang.Loyal y (fun z o => o.value.Known z.1.scene ∧ sites z.2 = sites x.2) (m.exec u) := by
    intro y Γ u hy hplain hsame hu
    have hbegun : Begun y.1.scene a (sites y.2) (.stmt u) := .inside (hsame.trans hsites) (.inr ⟨t, rfl⟩) hself.symm
    refine (h.exec hy (hbelow _ hu) hplain hbegun).weaken fun z o _ ho => ⟨ho.known, ?_⟩
    rw [ho.sites, hsame, hsites]
    rfl
  have hdone : ∀ {y : Store × List Moment} {o : Outcome}, o.value.Known y.1.scene → sites y.2 = sites x.2 →
      (Moment.ended t o y.1).Apt y.2 →
      o.value.Known y.1.scene ∧ (sites y.2).tail = σ ∧ (Moment.ended t o y.1).Apt y.2 := by
    intro y o ho hsame hapt
    refine ⟨ho, ?_, hapt⟩
    rw [hsame, hsites]
    rfl
  have hplain' : ∀ {y : Store × List Moment}, Onward x y → y.1.scene.Plain y.1.chain.frame :=
    fun hy => hy.chain ▸ hy.later.plain hplain
  have hx' : Onward x x := .refl hx.safe
  cases t with
  | expression e =>
    refine (hchild hx rfl (by simp [Node.children])).bind fun y v hy hv => ?_
    exact .pure hy.safe (hdone .nil hv.2 trivial)
  | print e =>
    refine (hchild hx rfl (by simp [Node.children])).bind fun y v hy hv => ?_
    refine (Loyal.text hy.safe hv.1).bind fun z u hz hpast => ?_
    refine (Loyal.print hz.safe u).bind fun w _ hw hpast' => ?_
    exact .pure hw.safe (hdone .nil (by rw [hpast'.1, hpast.1, hv.2]) trivial)
  | varDecl name initial =>
    have hdefine : ∀ {y : Store × List Moment} {v}, Onward x y → v.Known y.1.scene → sites y.2 = sites x.2 →
        LoxLang.Loyal y (fun z o => o.value.Known z.1.scene ∧ (sites z.2).tail = σ ∧
          (Moment.ended (.varDecl name initial) o z.1).Apt z.2)
          (do act (Exec.define name.lexeme v); pure .normal) := by
      intro y v hy hv hsame
      refine (Loyal.define hy.safe (hplain' hy) hregular hv).bind fun z _ hz hpast => ?_
      exact .pure hz.safe (hdone .nil (by rw [hpast.1, hsame]) trivial)
    cases initial with
    | none => exact hdefine hx' .nil rfl
    | some e =>
      have hput : Footing (Δ.put name.lexeme false) a x := ⟨hx.safe, hx.aligned.put hplain hregular false⟩
      exact (hchild hput rfl (by simp [Node.children])).bind fun y v hy hv => hdefine hy hv.1 hv.2
  | funDecl name f =>
    refine (Loyal.freshId hx.safe).bind fun y id hy => ?_
    rintro ⟨hpast, -⟩
    have hput : y.1.scene.Aligned (Δ.put name.lexeme true).seen y.1.chain a :=
      (hx.onward hy).aligned.put (hplain' hy) hregular true
    have hmade : (Value.function id ⟨name.lexeme, f, y.1.chain, false⟩).Known y.1.scene :=
      .function id ⟨⟨(Δ.put name.lexeme true).withRole .function, a,
        hbelow ((Δ.put name.lexeme true).withRole .function, .lambda f) (by simp [Node.children]), hput⟩,
        fun hinit => absurd hinit Bool.false_ne_true⟩
    refine .get ((Loyal.define hy.safe (hplain' hy) hregular hmade).bind fun z _ hz => ?_)
    rintro ⟨hpast', hfind⟩
    refine .pure hz.safe (hdone .nil (by rw [hpast', hpast]) ⟨_, by rw [hz.chain]; exact hfind, ?_⟩)
    exact ⟨_, _, _, _, by rw [hpast', hpast, hsites], rfl, by rw [hself]; exact hput.self.mono hz.later⟩
  | classDecl name methods =>
    refine (Loyal.define hx.safe hplain hregular .nil).bind fun y _ hy hpast => ?_
    refine (Loyal.freshId hy.safe).bind fun z id hz hpast' => ?_
    have hz' := hy.trans hz
    have hput : z.1.scene.Aligned (Δ.put name.lexeme true).seen z.1.chain a :=
      (hx.onward hz').aligned.put (hplain' hz') hregular true
    have hmade : (Value.classDef id ⟨name.lexeme, Evaluator.methodTable z.1.chain methods⟩).Known z.1.scene := by
      refine .classDef id fun other r hr => ?_
      obtain ⟨method, hmethod, -, rfl⟩ := methodTable_find? hr
      exact ⟨⟨_, _, a, rfl, hbelow _ (List.mem_map_of_mem hmethod), hput⟩, rfl⟩
    refine .get ((Loyal.define hz.safe (hplain' hz') hregular hmade).bind fun w _ hw hpast'' => ?_)
    exact .pure hw.safe (hdone .nil (by rw [hpast''.1, hpast'.1, hpast.1]) trivial)
  | block ss =>
    refine .get ((h.block (Γ := Δ.enter (.block ss) ⟨[]⟩) ss hx.safe rfl rfl rfl (fun name v hv => by simp at hv) hx.aligned
      hbelow fun u => .inside hsites (.inr ⟨_, rfl⟩) hself.symm).weaken fun y o _ ho => hdone ho.known ?_ trivial)
    obtain hsame | hentered := ho.sites
    · exact hsame
    · rw [hentered, hsites]
      rfl
  | ifThen c yes no =>
    refine (hchild hx rfl (by cases no <;> simp [Node.children])).bind fun y v hy hv => ?_
    have hbranch : ∀ {u}, (Δ, .stmt u) ∈ (Node.stmt (.ifThen c yes no)).children Δ →
        LoxLang.Loyal y (fun z o => o.value.Known z.1.scene ∧ (sites z.2).tail = σ ∧
          (Moment.ended (.ifThen c yes no) o z.1).Apt z.2) (m.exec u) := fun hu =>
      (hbelow' (hx.onward hy) (hplain' hy) hv.2 hu).weaken fun z o _ ho => hdone ho.1 ho.2 trivial
    split
    · exact hbranch (by cases no <;> simp [Node.children])
    · cases no with
      | none => exact .pure hy.safe (hdone .nil hv.2 trivial)
      | some n => exact hbranch (by simp [Node.children])
  | whileLoop c b step =>
    have hpart : ∀ {y u}, Onward x y → sites y.2 = sites x.2 →
        (Δ.withLoop true, .stmt u) ∈ (Node.stmt (.whileLoop c b step)).children Δ →
        LoxLang.Loyal y (fun z o => o.value.Known z.1.scene ∧ sites z.2 = sites x.2) (m.exec u) := fun hy hsame hu =>
      hbelow' (Γ := Δ.withLoop true) ⟨(hx.onward hy).safe, (hx.onward hy).aligned⟩ (hplain' hy) hsame hu
    refine (passes (fun y hy hsame => ?_) (fun y hy hsame => ?_) (fun y hy hsame => ?_) m.limit hx' rfl).weaken
      fun y o _ ho => hdone ho.1 ho.2 trivial
    · refine (hchild (hx.onward hy) hsame (by cases step <;> simp [Node.children])).bind fun z v hz hv => ?_
      exact .pure hz.safe hv.2
    · exact hpart hy hsame (by cases step <;> simp [Node.children])
    · cases step with
      | none => exact .pure hy.safe hsame
      | some u =>
        exact (hpart hy hsame (by simp [Node.children])).bind fun z _ hz ho => .pure hz.safe ho.2
  | ret keyword value =>
    cases value with
    | none => exact .pure hx.safe (hdone .nil rfl trivial)
    | some e =>
      refine (hchild hx rfl (by simp [Node.children])).bind fun y v hy hv => ?_
      exact .pure hy.safe (hdone hv.1 hv.2 trivial)
  | breakLoop keyword | continueLoop keyword => exact .pure hx.safe (hdone .nil rfl trivial)
  | ofExpr e => exact hregular.elim

end Tracer.Loyal

end LoxLang
