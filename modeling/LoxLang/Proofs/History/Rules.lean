import LoxLang.Proofs.History.Follows
import LoxLang.Proofs.History.Steady

namespace LoxLang

open Traced (world act)

variable {programs : List (List Stmt)} {w v : World} {chain : Chain}

/-- How a statement ends: with a value that fits, and normally only with its names in the innermost frame. -/
structure Ends (programs : List (List Stmt)) (t : Stmt) (chain : Chain) (w : World) (o : Outcome) : Prop where
  value : o.value.Fits programs w
  declared : o = .normal → ∀ name ∈ t.declares, w.Holds chain.frame name

theorem Ends.mono {t : Stmt} {o : Outcome} (h : Ends programs t chain w o) (hv : w.Later v) :
    Ends programs t chain v o :=
  ⟨h.value.mono hv, fun ho name hname => hv.held (h.declared ho name hname)⟩

theorem Situated.below {Δ Γ : Context} {j k : Node} (h : Situated programs w chain (Δ, j))
    (hk : (Γ, k) ∈ j.children Δ) :
    ∃ program ∈ programs, Occurs program Γ k ∧ Covers w (Pending program w (Γ, k)) Δ.levels chain := by
  obtain ⟨program, hprogram, ho, hcovers⟩ := h
  exact ⟨program, hprogram, ho.child hk, hcovers.mono (.refl w) fun hp => hp.mono (.refl w) (.single hk)⟩

section marked

theorem Sound.told_of_kept {x : Store × List Moment} (hs : Sound programs x) {m : Moment} (hm : m.store = x.1)
    (hcompleted : ∀ t s, m = .ended t .normal s → ∀ name ∈ t.declares,
      (s.frames.frame s.chain.frame).contains name = true)
    (hread : ∀ j s name d, m = .came j s → j.read? = some (name, d) → ∃ c, s.chain.out? d = some c ∧
      ((s.frames.frame c.frame).contains name.lexeme = false → Uninitialized programs x.2 j name d c.frame)) :
    Told programs x.2 m :=
  ⟨fun m' hm' f name hf => by rw [hm]; exact hs.past m' hm' f name hf, hcompleted, hread⟩

theorem Situated.told (h : ∀ program ∈ programs, ResolvedProgram program) {Δ : Context} {j : Node}
    {x : Store × List Moment} (hs : Sound programs x) (hj : Situated programs (world x) x.1.chain (Δ, j)) :
    Told programs x.2 (.came j x.1) := by
  refine hs.told_of_kept rfl (fun t s he => nomatch he) fun j' s name d he hread => ?_
  obtain ⟨rfl, rfl⟩ := Moment.came.inj he
  obtain ⟨program, hprogram, ho, hcovers⟩ := hj
  have hhops : Scopes.hops? name.lexeme Δ.seen = some d := by
    have hlegal := (ho.legal (h program hprogram)).2
    unfold Node.read? at hread
    split at hread
    · cases hread
      exact hlegal.symm
    · cases hread
      exact hlegal.2.symm
    · cases hread
  obtain ⟨b, hb, hvisible⟩ := Scopes.hops?_visible hhops
  obtain ⟨l, hl, rfl⟩ : ∃ l, Δ.levels[d]? = some l ∧ l.seen = b := by
    simpa [Context.seen] using hb
  obtain ⟨c, hout, hcomplete, hpending⟩ := hcovers.out? hl
  refine ⟨c, hout, fun habsent => ?_⟩
  obtain htrue | ⟨hpos, hfalse⟩ := hvisible
  · exact absurd (habsent.symm.trans (hcomplete _ htrue)) Bool.false_ne_true
  obtain ⟨Δ', decl, e, hname, hdecl, hscope, hr, hbegun⟩ := hpending _ hfalse
  change (Δ'.put decl.lexeme false).levels = Δ.levels.drop d at hscope
  have he : Occurs program (Δ'.put decl.lexeme false) (.expr e) := hdecl.child (by simp [Node.children])
  have hlevels : Δ.levels ≠ (Δ'.put decl.lexeme false).levels := by
    rw [hscope]
    intro hsame
    have hlength := congrArg List.length hsame
    have hlt := (List.getElem?_eq_some_iff.1 hl).1
    rw [List.length_drop] at hlength
    omega
  obtain ⟨Δ'', f, hfunction, hinside⟩ := hr.through_function (h program hprogram) he hlevels
  refine .intro hprogram ho hhops hdecl hname hscope.symm hfunction hinside hbegun fun s hended hframe => ?_
  -- had the declaration completed in this frame, its name would be there
  obtain ⟨earlier, later, hsplit⟩ := List.append_of_mem hended
  have hheld := (hs.told earlier _ later hsplit).completed _ _ rfl decl.lexeme (by simp [Stmt.declares])
  have hnow := hs.past _ hended _ _ hheld
  rw [hframe, hname] at hnow
  exact absurd (habsent.symm.trans hnow) Bool.false_ne_true

variable {α : Type} {P : World → α → Prop}

theorem Steady.marked {j : Node} {mark : α → Store → Moment} {p : Traced α}
    (hP : ∀ {v v' a}, P v a → v.Later v' → P v' a)
    (hcame : ∀ x, w.Later (world x) → Sound programs x → x.1.chain = chain → Told programs x.2 (.came j x.1))
    (hmark : ∀ x a, Sound programs x → x.1.chain = chain → P (world x) a →
      (mark a x.1).store = x.1 ∧ Told programs x.2 (mark a x.1))
    (hp : ∀ v, w.Later v → (∃ s, .came j s ∈ v.history ∧ s.chain = chain) → Steady programs v chain P p) :
    Steady programs w chain P (Traced.marked j mark p) := by
  intro x hx hs hc
  have hbegin := hs.record rfl (hcame x hx hs hc)
  obtain ⟨hok, herror⟩ := hp _ (hx.trans hbegin.later) ⟨x.1, by simp, hc⟩ _ (.refl _) hbegin.sound hc
  unfold Traced.marked
  cases hpx : p (x.1, x.2 ++ [.came j x.1]) with
  | ok a y =>
    obtain ⟨hkept, hpost⟩ := hok a y hpx
    obtain ⟨hstore, htold⟩ := hmark y a hkept.sound (hkept.chain.trans hc) hpost
    have hend := hkept.sound.record hstore htold
    refine ⟨fun b z hz => ?_, fun e z hz => (nomatch hz)⟩
    cases hz
    exact ⟨(hbegin.trans hkept).trans hend, hP hpost hend.later⟩
  | error e y =>
    have hkept := herror e y hpx
    have hend := hkept.sound.record (m := .stopped j e y.1) rfl
      (hkept.sound.told_of_kept rfl (fun t s he => nomatch he) (fun j s name d he => nomatch he))
    refine ⟨fun b z hz => (nomatch hz), fun e z hz => ?_⟩
    cases hz
    exact (hbegin.trans hkept).trans hend

end marked

namespace Steady

section operators

variable {a b : Value}

theorem unary (op : Token) (ha : a.Fits programs w) :
    Steady programs w chain (fun v a => a.Fits programs v) (act (a.unary op)) :=
  value_of_acts fun v hv => Acts.unary (Value.Fits.lookalike programs v) rfl ⟨rfl, ha.mono hv⟩

theorem binary (op : Token) (ha : a.Fits programs w) (hb : b.Fits programs w) :
    Steady programs w chain (fun v a => a.Fits programs v) (act (Value.binary op a b)) :=
  value_of_acts fun v hv => Acts.binary (Value.Fits.lookalike programs v) rfl ⟨rfl, ha.mono hv⟩ ⟨rfl, hb.mono hv⟩

theorem native (n : Native) {as : List Value} (has : ∀ a ∈ as, a.Fits programs w) (hcount : as.length = n.arity) :
    Steady programs w chain (fun v a => a.Fits programs v) (act (n.apply as)) :=
  value_of_acts fun v hv =>
    Acts.native (Value.Fits.lookalike programs v) (Value.Itself.forall₂ fun a ha => (has a ha).mono hv) n hcount

end operators

section access

theorem read (name : Token) (hops : Option Nat) :
    Steady programs w chain (fun v a => a.Fits programs v) (act (Addressing.byDistance.read name hops)) := by
  cases hops with
  | some d =>
    refine exec_get fun x _ hs _ => ?_
    unfold Frames.findAt?
    cases x.1.chain.out? d with
    | none => exact throw _
    | some c => exact exec_pure fun _ hv => (Bindings.All.getD (hs.frames c.frame) .nil name.lexeme).mono hv
  | none =>
    refine exec_get fun x _ hs _ => ?_
    have hglobal : x.1.frames.find? name.lexeme globals = (x.1.frames.frame 0).find? name.lexeme := rfl
    rw [hglobal]
    cases hfind : (x.1.frames.frame 0).find? name.lexeme with
    | none => exact fault _ _
    | some a => exact exec_pure fun _ hv => (hs.frames _ _ a hfind).mono hv

theorem defineIn (f : Nat) (name : String) {a : Value} (ha : a.Fits programs w) :
    Steady programs w chain (fun _ _ => True) (act (Exec.defineIn f name a)) :=
  update fun x hx hs _ => hs.define (ha.mono (hx.trans (World.later_define (world x) f name a)))

theorem write (name : Token) (hops : Option Nat) {a : Value} (ha : a.Fits programs w) :
    Steady programs w chain (fun _ _ => True) (act (Addressing.byDistance.write name hops a)) := by
  cases hops with
  | some d =>
    refine exec_get fun x hx _ _ => ?_
    cases x.1.chain.out? d with
    | none => exact throw _
    | some c => exact defineIn _ _ (ha.mono hx)
  | none =>
    refine exec_get fun x hx _ _ => ?_
    cases x.1.frames.holder? name.lexeme globals with
    | none => exact fault _ _
    | some f => exact defineIn _ _ (ha.mono hx)

end access

theorem passes {test : Traced Bool} {body : Traced Outcome} {step : Traced Unit}
    (htest : ∀ v, w.Later v → Steady programs v chain (fun _ _ => True) test)
    (hbody : ∀ v, w.Later v → Steady programs v chain (fun v o => o.value.Fits programs v) body)
    (hstep : ∀ v, w.Later v → Steady programs v chain (fun _ _ => True) step) (n : Nat) :
    Steady programs w chain (fun v o => o.value.Fits programs v) (Traced.passes test body step n) := by
  induction n generalizing w with
  | zero => exact endless
  | succ n ih =>
    refine (htest w (.refl w)).bind fun v go hv _ => ?_
    cases go with
    | false => exact pure fun _ _ => .nil
    | true =>
      refine (hbody v hv).bind fun v' o hv' ho => ?_
      have hnext : Steady programs v' chain (fun v o => o.value.Fits programs v)
          (do step; Traced.passes test body step n) :=
        (hstep v' (hv.trans hv')).bind fun u _ hu _ => ih (fun z hz => htest z (hv.trans (hv'.trans (hu.trans hz))))
          (fun z hz => hbody z (hv.trans (hv'.trans (hu.trans hz))))
          (fun z hz => hstep z (hv.trans (hv'.trans (hu.trans hz))))
      cases o with
      | broken => exact pure fun _ _ => .nil
      | returned a => exact pure fun _ hu => ho.mono hu
      | normal | continued => exact hnext

end Steady

section bindings

theorem bindAll_eq (params : List Token) (args : List Value) :
    bindAll params args = (params.zip args).foldl (fun b x => b.put x.1.lexeme x.2) ⟨[]⟩ := rfl

theorem mem_of_bindAll {params : List Token} {args : List Value} {name : String} {a : Value}
    (h : (bindAll params args).find? name = some a) : a ∈ args := by
  rw [bindAll_eq] at h
  suffices hall : ∀ (xs : List (Token × Value)) (b : Bindings Value),
      (xs.foldl (fun b x => b.put x.1.lexeme x.2) b).find? name = some a →
        (∃ x ∈ xs, x.2 = a) ∨ b.find? name = some a by
    obtain ⟨x, hx, rfl⟩ | h := hall _ _ h
    · exact (List.of_mem_zip hx).2
    · cases h
  intro xs
  induction xs with
  | nil => exact fun b hb => .inr hb
  | cons x xs ih =>
    intro b hb
    obtain ⟨y, hy, hya⟩ | hb := ih _ hb
    · exact .inl ⟨y, by simp [hy], hya⟩
    · rw [Bindings.find?_put] at hb
      split at hb
      · exact .inl ⟨x, by simp, Option.some.inj hb⟩
      · exact .inr hb

theorem contains_bindAll {params : List Token} {args : List Value} (h : args.length = params.length) {name : String}
    (hname : name ∈ params.map Token.lexeme) : (bindAll params args).contains name = true := by
  rw [bindAll_eq]
  suffices hall : ∀ (xs : List (Token × Value)) (b : Bindings Value),
      name ∈ xs.map (fun x => x.1.lexeme) ∨ b.contains name = true →
        (xs.foldl (fun b x => b.put x.1.lexeme x.2) b).contains name = true by
    refine hall _ _ (.inl ?_)
    rw [← List.map_fst_zip (Nat.le_of_eq h.symm), List.map_map] at hname
    exact hname
  intro xs
  induction xs with
  | nil => exact fun b hb => hb.resolve_left (by simp)
  | cons x xs ih =>
    intro b hb
    refine ih _ ?_
    rw [Bindings.contains_put, Bool.or_eq_true, decide_eq_true_eq]
    rw [List.map_cons, List.mem_cons] at hb
    tauto

theorem methodTable_find? {methods : List Method} {name : String} {r : Routine}
    (h : (Evaluator.methodTable chain methods).find? name = some r) :
    ∃ method ∈ methods, method.name.lexeme = name ∧
      r = ⟨name, method.definition, chain, decide (name = initializerName)⟩ := by
  unfold Evaluator.methodTable at h
  suffices hall : ∀ b : Bindings Routine, (methods.foldl _ b).find? name = some r →
      (∃ method ∈ methods, method.name.lexeme = name ∧
        r = ⟨name, method.definition, chain, decide (name = initializerName)⟩) ∨ b.find? name = some r by
    exact (hall _ h).resolve_right (by simp)
  clear h
  induction methods with
  | nil => exact fun b hb => .inr hb
  | cons method methods ih =>
    intro b hb
    obtain ⟨other, hother, hr⟩ | hb := ih _ hb
    · exact .inl ⟨other, by simp [hother], hr⟩
    · rw [Bindings.find?_put] at hb
      split at hb
      · rename_i heq
        obtain rfl := Option.some.inj hb
        exact .inl ⟨method, by simp, heq.symm, by simp [heq]⟩
      · exact .inr hb

end bindings

structure Tracer.Steady (programs : List (List Stmt)) (m : Tracer) : Prop where
  eval : ∀ {w chain Δ e}, Situated programs w chain (Δ, .expr e) →
    LoxLang.Steady programs w chain (fun v a => a.Fits programs v) (m.eval e)
  exec : ∀ {w chain Δ t}, Situated programs w chain (Δ, .stmt t) →
    LoxLang.Steady programs w chain (Ends programs t chain) (m.exec t)

theorem Routine.bindTo_steady {r : Routine} {self : Value} (hr : r.FitsObject programs w)
    (hself : self.Fits programs w) : LoxLang.Steady programs w chain
      (fun v r' => r'.Fits programs v ∧ r'.arity = r.arity) (act (r.bindTo self)) := by
  refine Steady.exec_bind (Steady.pushFrame fun name v hv => ?_) fun v c hv hc => ?_
  · by_cases hname : name = selfName
    · subst hname
      exact Option.some.inj hv ▸ hself
    · simp [Bindings.find?, List.lookup_cons, beq_eq_false_iff_ne.2 hname] at hv
  · obtain ⟨f, rfl, hf, hheld⟩ := hc
    refine Steady.exec_pure fun u hu => ⟨?_, rfl⟩
    exact ((hr.mono hv).bind hf (hheld _ (by simp))).imp fun _ h => h.mono hu

namespace Tracer.Steady

variable {m : Tracer} (h : m.Steady programs)

include h

theorem evalAll {Δ : Context} {es : List Expr} (hes : ∀ e ∈ es, Situated programs w chain (Δ, .expr e)) :
    LoxLang.Steady programs w chain (fun v as => ∀ a ∈ as, a.Fits programs v) (m.evalAll es) := by
  induction es generalizing w with
  | nil => exact .pure fun _ _ a ha => nomatch ha
  | cons e es ih =>
    rw [List.forall_mem_cons] at hes
    refine (h.eval hes.1).bind fun v a hv ha => (ih fun e he => (hes.2 e he).mono hv).bind fun v' as hv' has => ?_
    exact .pure fun u hu => List.forall_mem_cons.2 ⟨ha.mono (hv'.trans hu), fun b hb => (has b hb).mono hu⟩

theorem sequence {Γ : Context} {ss : List Stmt} (hsettled : Γ.Settled)
    (hss : ∀ x ∈ Γ.sequence ss, ∃ program ∈ programs, Occurs program x.1 x.2 ∧
      Covers w (Pending program w x) Γ.levels chain) :
    LoxLang.Steady programs w chain (fun v o => o.value.Fits programs v) (m.sequence ss) := by
  induction ss generalizing Γ w with
  | nil => exact .pure fun _ _ => .nil
  | cons t ts ih =>
    rw [Context.sequence, List.forall_mem_cons] at hss
    refine (h.exec hss.1).bind fun v o hv ho => ?_
    cases o with
    | normal =>
      refine ih (hsettled.after t) fun x hx => ?_
      obtain ⟨program, hprogram, hoccurs, hcovers⟩ := hss.2 x hx
      refine ⟨program, hprogram, hoccurs, ?_⟩
      exact (hcovers.mono hv fun hp => hp.mono hv .refl).after hsettled (ho.declared rfl)
    | _ => exact .pure fun _ hu => ho.value.mono hu

theorem block {Δ Γ : Context} {j : Node} {l : Level} {outer : Chain} {contents : Bindings Value} {ss : List Stmt}
    (hj : Situated programs w outer (Δ, j)) (hss : ∀ x ∈ Γ.sequence ss, x ∈ j.children Δ)
    (hlevels : Γ.levels = l :: Δ.levels) (hcomplete : ∀ name complete, l.seen.find? name = some complete →
      complete = true ∧ contents.contains name = true)
    (hcontents : ∀ name a, contents.find? name = some a → a.Fits programs w) :
    LoxLang.Steady programs w chain (fun v o => o.value.Fits programs v) (m.block contents outer ss) := by
  refine (Steady.pushFrame hcontents).bind fun v c hv hc => ?_
  obtain ⟨f, rfl, hf, hheld⟩ := hc
  refine (h.sequence (Γ := Γ) (fun l' hl' name hfalse => ?_) fun x hx => ?_).within
  · rw [hlevels] at hl'
    obtain rfl := Option.some.inj hl'
    cases (hcomplete name _ hfalse).1
  · obtain ⟨program, hprogram, ho, hcovers⟩ := hj.below (hss x hx)
    refine ⟨program, hprogram, ho, ?_⟩
    rw [hlevels]
    refine .link hf (fun name htrue => hheld name (hcomplete name _ htrue).2) (fun name hfalse => ?_)
      (hcovers.mono hv fun hp => hp.mono hv .refl)
    cases (hcomplete name _ hfalse).1

theorem invoke {r : Routine} {as : List Value} (hr : r.Fits programs w) (has : ∀ a ∈ as, a.Fits programs w)
    (hcount : as.length = r.arity) :
    LoxLang.Steady programs w chain (fun v a => a.Fits programs v) (m.invoke r as) := by
  obtain ⟨Δ, hsituated⟩ := hr
  refine (h.block hsituated (fun x hx => hx) rfl (fun name complete hfind => ?_)
    fun name a ha => has a (mem_of_bindAll ha)).bind fun v o hv ho => ?_
  · change (paramsSeen r.definition.params).find? name = some complete at hfind
    rw [Context.paramsSeen_find?] at hfind
    split at hfind
    · exact ⟨(Option.some.inj hfind).symm, contains_bindAll hcount ‹_›⟩
    · cases hfind
  · refine .get fun x hx hs _ => .pure fun u hu => ?_
    unfold Routine.result
    split
    · cases hself : (x.1.frames.frame r.closure.frame).find? selfName with
      | none => exact .nil
      | some a => exact (hs.frames _ _ a hself).mono hu
    · exact ho.mono (hx.trans hu)

theorem instantiate {c : Class} {as : List Value} (hc : c.Fits programs w) (has : ∀ a ∈ as, a.Fits programs w)
    (hcount : as.length = c.arity) :
    LoxLang.Steady programs w chain (fun v a => a.Fits programs v) (m.instantiate c as) := by
  refine (Steady.newObject hc).bind fun v self hv hself => ?_
  unfold Class.arity at hcount
  cases hinit : c.initializer? with
  | none => exact .pure fun _ hu => hself.mono hu
  | some r =>
    rw [hinit] at hcount
    have hr : r.FitsObject programs v := (hc _ _ hinit).mono hv
    refine (r.bindTo_steady hr hself).bind fun v' bound hv' hbound => ?_
    refine (h.invoke hbound.1 (fun a ha => (has a ha).mono (hv.trans hv')) (hcount.trans hbound.2.symm)).bind
      fun u _ hu _ => ?_
    exact .pure fun _ hz => hself.mono (hv'.trans (hu.trans hz))

theorem apply {a : Value} {as : List Value} (line : Int) (ha : a.Fits programs w)
    (has : ∀ a ∈ as, a.Fits programs w) :
    LoxLang.Steady programs w chain (fun v a => a.Fits programs v) (m.apply a as line) := by
  have hchecked : ∀ arity p,
      (as.length = arity → LoxLang.Steady programs w chain (fun v a => a.Fits programs v) p) →
      LoxLang.Steady programs w chain (fun v a => a.Fits programs v) (checked arity as line p) := by
    intro arity p hp
    unfold checked
    split
    · exact (hp ‹_›).blaming line
    · exact .fault _ _
  unfold Tracer.apply
  cases ha with
  | native n => exact hchecked _ _ fun hcount => .native n has hcount
  | function id hr => exact hchecked _ _ fun hcount => h.invoke hr has hcount
  | classDef id hc => exact hchecked _ _ fun hcount => h.instantiate hc has hcount
  | _ => exact .fault _ _

omit h in
theorem property {a : Value} (name : Token) (ha : a.Fits programs w) :
    LoxLang.Steady programs w chain (fun v a => a.Fits programs v) (act (Evaluator.property a name)) := by
  unfold Evaluator.property
  cases ha with
  | @object id c hc =>
    refine .exec_get fun x hx hs _ => ?_
    cases hfield : (x.1.fields id).find? name.lexeme with
    | some a => exact .exec_pure fun _ hv => (hs.fields _ _ a hfield).mono hv
    | none =>
      cases hmethod : c.methods.find? name.lexeme with
      | none => exact .fault _ _
      | some r =>
        refine .exec_bind (r.bindTo_steady ((hc _ r hmethod).mono hx) (.object id (hc.mono hx))) fun v r' _ hr' => ?_
        exact .exec_bind .freshId fun v' id' hv' _ => .exec_pure fun u hu =>
          .function id' (hr'.1.imp fun _ h => h.mono (hv'.trans hu))
  | _ => exact .fault _ _

theorem evalRule {Δ : Context} {e : Expr} (he : Situated programs w chain (Δ, .expr e)) :
    LoxLang.Steady programs w chain (fun v a => a.Fits programs v) (m.evalRule e) := by
  have hchild : ∀ {v k}, w.Later v → (Δ, .expr k) ∈ (Node.expr e).children Δ →
      LoxLang.Steady programs v chain (fun v a => a.Fits programs v) (m.eval k) :=
    fun hv hk => h.eval ((he.child hk rfl).mono hv)
  have hchildren : ∀ {v es}, w.Later v → (∀ k ∈ es, (Δ, .expr k) ∈ (Node.expr e).children Δ) →
      LoxLang.Steady programs v chain (fun v as => ∀ a ∈ as, a.Fits programs v) (m.evalAll es) :=
    fun hv hes => h.evalAll fun k hk => (he.child (hes k hk) rfl).mono hv
  have hw : w.Later w := .refl w
  cases e with
  | literal l => exact .pure fun v _ => ((Value.Fits.lookalike programs v).ofLiteral l).2
  | ref name hops => exact .read name hops
  | self keyword hops => exact .read keyword hops
  | assign name hops e =>
    refine (hchild hw (by simp [Node.children])).bind fun v a hv ha => ?_
    exact (Steady.write name hops ha).bind fun v' _ hv' _ => .pure fun _ hu => ha.mono (hv'.trans hu)
  | group e => exact hchild hw (by simp [Node.children])
  | unary op e => exact (hchild hw (by simp [Node.children])).bind fun _ _ _ ha => .unary op ha
  | binary l op r =>
    refine (hchild hw (by simp [Node.children])).bind fun v a hv ha => ?_
    exact (hchild hv (by simp [Node.children])).bind fun _ b hu hb => .binary op (ha.mono hu) hb
  | logical l op r =>
    refine (hchild hw (by simp [Node.children])).bind fun v a hv ha => ?_
    split
    · exact .pure fun _ hu => ha.mono hu
    · exact hchild hv (by simp [Node.children])
  | ternary c y n line =>
    refine (hchild hw (by simp [Node.children])).bind fun v a hv _ => ?_
    split
    · exact hchild hv (by simp [Node.children])
    · exact hchild hv (by simp [Node.children])
    · exact .exec_bind (.text _) fun _ _ _ _ => .fault _ _
  | call f paren args =>
    refine (hchild hw (by simp [Node.children])).bind fun v a hv ha => ?_
    refine (hchildren hv fun k hk => by simp [Node.children, hk]).bind fun v' as hv' has => ?_
    exact h.apply paren.line (ha.mono hv') has
  | property o name => exact (hchild hw (by simp [Node.children])).bind fun _ a _ ha => property name ha
  | setProperty o name e =>
    refine (hchild hw (by simp [Node.children])).bind fun v a hv _ => ?_
    split
    · refine (hchild hv (by simp [Node.children])).bind fun v' b hv' hb => ?_
      exact (Steady.setField _ _ hb).bind fun _ _ hu _ => .pure fun _ hz => hb.mono (hu.trans hz)
    · exact .fault _ _
  | function f =>
    refine Steady.freshId.bind fun v id hv _ => .get fun x hx _ hc => .pure fun u hu => ?_
    have hf : Situated programs w chain (Δ.withRole .function, .lambda f) := he.child (by simp [Node.children]) rfl
    rw [hc]
    exact .function id ⟨_, hf.mono (hv.trans (hx.trans hu))⟩
  | list es => exact (hchildren hw fun k hk => by simp [Node.children, hk]).bind fun _ as _ has => .newList has
  | ofStmt t =>
    exact (h.exec (he.child (by simp [Node.children]) rfl)).bind fun _ _ _ _ => .pure fun _ _ => .bool _
  | stub s => exact .throw _

theorem execRule (hresolved : ∀ program ∈ programs, ResolvedProgram program) {Δ : Context} {t : Stmt}
    (ht : Situated programs w chain (Δ, .stmt t))
    (hbegun : ∃ s, .came (.stmt t) s ∈ w.history ∧ s.chain = chain) :
    LoxLang.Steady programs w chain (Ends programs t chain) (m.execRule t) := by
  have hw : w.Later w := .refl w
  have hsettled : Δ.Settled := by
    obtain ⟨program, hprogram, ho, -⟩ := ht
    exact ho.settled (hresolved program hprogram)
  have hframe : ∀ v, w.Later v → chain.frame < v.frames.size := by
    intro v hv
    obtain ⟨program, hprogram, ho, hcovers⟩ := ht
    exact (hcovers.mono (Q := fun _ _ _ => True) hv fun _ => trivial).frame_lt
  have hchild : ∀ {v k}, w.Later v → (Δ, .expr k) ∈ (Node.stmt t).children Δ →
      LoxLang.Steady programs v chain (fun v a => a.Fits programs v) (m.eval k) :=
    fun hv hk => h.eval ((ht.child hk rfl).mono hv)
  have hnone : ∀ {p : Traced Outcome}, t.declares = [] →
      LoxLang.Steady programs w chain (fun v o => o.value.Fits programs v) p →
      LoxLang.Steady programs w chain (Ends programs t chain) p := by
    intro p ht hp
    exact hp.weaken fun v o _ ho => ⟨ho, fun _ => by simp [ht]⟩
  -- a node below on the levels that the name which the statement declares leaves
  have hnamed : ∀ {v name Γ k}, w.Later v → v.Holds chain.frame name → (Γ, k) ∈ (Node.stmt t).children Δ →
      ∃ program ∈ programs, Occurs program Γ k ∧
        Covers v (Pending program v (Γ, k)) (Δ.put name true).levels chain := by
    intro v name Γ k hv hname hk
    obtain ⟨program, hprogram, ho, hcovers⟩ := ht.below hk
    exact ⟨program, hprogram, ho, (hcovers.mono hv fun hp => hp.mono hv .refl).put hsettled (fun _ => hname) nofun⟩
  cases t with
  | expression e | ofExpr e =>
    refine hnone rfl ((hchild hw (by simp [Node.children])).bind fun _ _ _ _ => .pure fun _ _ => .nil)
  | print e =>
    refine hnone rfl ((hchild hw (by simp [Node.children])).bind fun _ a _ _ => (Steady.text a).bind fun _ u _ _ => ?_)
    exact (Steady.print u).bind fun _ _ _ _ => .pure fun _ _ => .nil
  | varDecl name initial =>
    have hdefine : ∀ {v a}, w.Later v → a.Fits programs v → LoxLang.Steady programs v chain
        (Ends programs (.varDecl name initial) chain) (do act (Exec.define name.lexeme a); pure .normal) := by
      intro v a hv ha
      refine (Steady.define (hframe v hv) fun u hu _ => ha.mono hu).bind fun u _ _ hheld => .pure fun z hz => ?_
      exact ⟨.nil, fun _ other hother => by
        rw [List.mem_singleton.1 hother]
        exact hz.held hheld⟩
    cases initial with
    | none => exact hdefine hw .nil
    | some e =>
      have he : Situated programs w chain (Δ.put name.lexeme false, .expr e) := by
        have hk : (Δ.put name.lexeme false, Node.expr e) ∈ (Node.stmt (.varDecl name (some e))).children Δ := by
          simp [Node.children]
        obtain ⟨program, hprogram, ho, hcovers⟩ := ht
        refine ⟨program, hprogram, ho.child hk, (hcovers.mono hw fun hp => hp.mono hw (.single hk)).put hsettled nofun
          fun _ => ?_⟩
        obtain ⟨s, hs, hc⟩ := hbegun
        exact ⟨Δ, name, e, rfl, ho, rfl, .refl, s, hs, by rw [hc]⟩
      exact (h.eval he).bind fun v a hv ha => hdefine hv ha
  | funDecl name f =>
    refine Steady.freshId.bind fun v id hv _ => .get fun x hx _ hc => ?_
    have hx' := hv.trans hx
    rw [hc]
    refine (Steady.define (hframe _ hx') fun u hu hheld => .function id
      ⟨(Δ.put name.lexeme true).withRole .function, ?_⟩).bind fun u _ _ hheld =>
      .pure fun z hz => ⟨.nil, fun _ other hother => ?_⟩
    · exact hnamed (hx'.trans hu) hheld (by simp [Node.children])
    · rw [List.mem_singleton.1 hother]
      exact hz.held hheld
  | classDecl name methods =>
    refine (Steady.define (hframe w hw) fun _ _ _ => .nil).bind fun v _ hv hheld => ?_
    refine Steady.freshId.bind fun v' id hv' _ => .get fun x hx _ hc => ?_
    have hx' := hv.trans (hv'.trans hx)
    rw [hc]
    refine (Steady.define (hframe _ hx') fun u hu hheld => .classDef id fun other r hr => ?_).bind fun u _ _ hheld =>
      .pure fun z hz => ⟨.nil, fun _ other hother => ?_⟩
    · obtain ⟨method, hmethod, -, rfl⟩ := methodTable_find? hr
      have hk : ((((Δ.put name.lexeme true).enter (.object methods) ⟨[(selfName, true)]⟩).withClass).withRole
          method.role, Node.lambda method.definition) ∈ (Node.stmt (.classDecl name methods)).children Δ :=
        List.mem_map_of_mem hmethod
      obtain ⟨program, hprogram, ho, hcovers⟩ := hnamed (hx'.trans hu) hheld hk
      exact ⟨program, hprogram, _, _, _, rfl, rfl, ho, hcovers⟩
    · rw [List.mem_singleton.1 hother]
      exact hz.held hheld
  | block ss =>
    refine hnone rfl (.get fun x hx _ hc => ?_)
    rw [hc]
    exact h.block (ht.mono hx) (Γ := Δ.enter (.block ss) ⟨[]⟩) (fun _ hk => hk) rfl (fun _ _ hfind => by simp at hfind)
      fun _ _ ha => by simp at ha
  | ifThen c y no =>
    have hbranch : ∀ {v u}, w.Later v → (Δ, .stmt u) ∈ (Node.stmt (.ifThen c y no)).children Δ →
        LoxLang.Steady programs v chain (fun v o => o.value.Fits programs v) (m.exec u) :=
      fun hv hu => (h.exec ((ht.child hu rfl).mono hv)).weaken fun _ _ _ ho => ho.value
    refine hnone rfl ((hchild hw (by cases no <;> simp [Node.children])).bind fun v a hv _ => ?_)
    split
    · exact hbranch hv (by cases no <;> simp [Node.children])
    · cases no with
      | none => exact .pure fun _ _ => .nil
      | some n => exact hbranch hv (by simp [Node.children])
  | whileLoop c b step =>
    have hbody : ∀ {v u}, w.Later v → (Δ.withLoop true, .stmt u) ∈ (Node.stmt (.whileLoop c b step)).children Δ →
        LoxLang.Steady programs v chain (fun v o => o.value.Fits programs v) (m.exec u) :=
      fun hv hu => (h.exec ((ht.child hu rfl).mono hv)).weaken fun _ _ _ ho => ho.value
    refine hnone rfl (.passes (fun v hv => ?_) (fun v hv => ?_) (fun v hv => ?_) _)
    · exact (hchild hv (by cases step <;> simp [Node.children])).bind fun _ _ _ _ => .pure fun _ _ => trivial
    · exact hbody hv (by cases step <;> simp [Node.children])
    · cases step with
      | none => exact .pure fun _ _ => trivial
      | some s => exact (hbody hv (by simp [Node.children])).bind fun _ _ _ _ => .pure fun _ _ => trivial
  | ret keyword value =>
    cases value with
    | none => exact hnone rfl (.pure fun _ _ => .nil)
    | some e =>
      exact hnone rfl ((hchild hw (by simp [Node.children])).bind fun _ _ _ ha => .pure fun _ hu => ha.mono hu)
  | breakLoop | continueLoop => exact hnone rfl (.pure fun _ _ => .nil)

end Tracer.Steady

end LoxLang
