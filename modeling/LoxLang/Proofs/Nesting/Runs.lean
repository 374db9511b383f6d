import LoxLang.Proofs.Nesting.Twins
import LoxLang.Proofs.Running.Rules

namespace LoxLang

/-- The run that its bound may cut short. Nothing is said of the other then. -/
inductive Side where
  | first | second

/-- Bounds on the two runs of which that on the other side is no less than is needed: the second run is at most
twice as deep as the first, and no less deep. -/
def Enough : Side → Nat → Nat → Prop
  | .first, n, n' => 2 * n ≤ n'
  | .second, n, n' => n' ≤ n

theorem Enough.cases {side : Side} {n n' : Nat} (h : Enough side n n') :
    (side = .first ∧ n = 0 ∨ side = .second ∧ n' = 0) ∨ ∃ m m', n = m + 1 ∧ n' = m' + 1 ∧ Enough side m m' := by
  cases side with
  | first =>
    obtain _ | m := n
    · exact .inl (.inl ⟨rfl, rfl⟩)
    · obtain _ | m' := n'
      · simp [Enough] at h
      · exact .inr ⟨m, m', rfl, rfl, by simp only [Enough] at h ⊢; omega⟩
  | second =>
    obtain _ | m' := n'
    · exact .inl (.inr ⟨rfl, rfl⟩)
    · obtain _ | m := n
      · simp [Enough] at h
      · exact .inr ⟨m, m', rfl, rfl, Nat.le_of_succ_le_succ h⟩

namespace Pairing

open LoxLang.Stopping

variable {α β γ δ : Type}

/-- Two ends of actions, each back on the chain that it began on, unless one was cut short. -/
inductive Agree (P : Pairing) (side : Side) (w : List Nat) (c c' : Chain) (post : α → β → Prop) :
    EStateM.Result Stop Store α → EStateM.Result Stop Store β → Prop
  | ok {a : α} {a' : β} {s s' : Store} (h : post a a') (hs : P.Stores w s s') (hc : s.chain = c)
    (hc' : s'.chain = c') : Agree P side w c c' post (.ok a s) (.ok a' s')
  | error {e : Stop} {s s' : Store} (hs : P.Stores w s s') (hc : s.chain = c) (hc' : s'.chain = c') :
    Agree P side w c c' post (.error e s) (.error e s')
  | first (hside : side = .first) {s : Store} {r' : EStateM.Result Stop Store β} :
    Agree P side w c c' post (.error .endless s) r'
  | second (hside : side = .second) {r : EStateM.Result Stop Store α} {s' : Store} :
    Agree P side w c c' post r (.error .endless s')

/-- From any related stores with at least the frames of `w`, on chains with these layers, the two actions agree. -/
def Runs (P : Pairing) (side : Side) (w : List Nat) (Γ : List Layer) (post : List Nat → α → β → Prop) (p : Exec α)
    (p' : Exec β) : Prop :=
  ∀ v s s', w <+: v → P.Stores v s s' → Chains v Γ s.chain s'.chain →
    ∃ x, v <+: x ∧ P.Agree side x s.chain s'.chain (post x) (p s) (p' s')

namespace Runs

variable {P : Pairing} {side : Side} {w : List Nat} {Γ : List Layer} {post : List Nat → α → β → Prop}
  {post' : List Nat → γ → δ → Prop} {p : Exec α} {p' : Exec β}

theorem mono {v : List Nat} (h : P.Runs side w Γ post p p') (hv : w <+: v) : P.Runs side v Γ post p p' :=
  fun x s s' hx => h x s s' (hv.trans hx)

theorem pure {a : α} {a' : β} (h : ∀ v, w <+: v → post v a a') :
    P.Runs side w Γ post (Pure.pure a) (Pure.pure a') :=
  fun v _ _ hv hs _ => ⟨v, List.prefix_refl v, .ok (h v hv) hs rfl rfl⟩

theorem throw (e : Stop) : P.Runs side w Γ post (MonadExcept.throw e) (MonadExcept.throw e) :=
  fun v _ _ _ hs _ => ⟨v, List.prefix_refl v, .error hs rfl rfl⟩

theorem fault (cause : Fault.Cause) (line : Option Int) :
    P.Runs side w Γ post (Exec.fault cause line) (Exec.fault cause line) := throw _

theorem first (hside : side = .first) : P.Runs side w Γ post Exec.endless p' :=
  fun v _ _ _ _ _ => ⟨v, List.prefix_refl v, .first hside⟩

theorem second (hside : side = .second) : P.Runs side w Γ post p Exec.endless :=
  fun v _ _ _ _ _ => ⟨v, List.prefix_refl v, .second hside⟩

theorem bind {k : α → Exec γ} {k' : β → Exec δ} (hp : P.Runs side w Γ post p p')
    (hk : ∀ v a a', w <+: v → post v a a' → P.Runs side v Γ post' (k a) (k' a')) :
    P.Runs side w Γ post' (p >>= k) (p' >>= k') := by
  intro v s s' hv hs hc
  obtain ⟨x, hx, hagree⟩ := hp v s s' hv hs hc
  generalize hr : p s = r at hagree
  generalize hr' : p' s' = r' at hagree
  cases hagree with
  | ok h hs₁ hc₁ hc₁' =>
    obtain ⟨y, hy, hagree⟩ := hk x _ _ (hv.trans hx) h x _ _ (List.prefix_refl x) hs₁
      (hc₁ ▸ hc₁' ▸ hc.mono hx)
    rw [bind_ok hr, bind_ok hr']
    exact ⟨y, hx.trans hy, hc₁ ▸ hc₁' ▸ hagree⟩
  | error hs₁ hc₁ hc₁' =>
    rw [bind_error hr, bind_error hr']
    exact ⟨x, hx, .error hs₁ hc₁ hc₁'⟩
  | first hside =>
    rw [bind_error hr]
    exact ⟨x, hx, .first hside⟩
  | second hside =>
    rw [bind_error hr']
    exact ⟨x, hx, .second hside⟩

/-- After a look at the stores, what is said of them must still hold when there are more frames. -/
theorem get {k : Store → Exec γ} {k' : Store → Exec δ}
    (hk : ∀ v s s', w <+: v → P.Stores v s s' → Chains v Γ s.chain s'.chain →
      P.Runs side v Γ post' (k s) (k' s')) :
    P.Runs side w Γ post' ((MonadState.get : Exec Store) >>= k) ((MonadState.get : Exec Store) >>= k') :=
  fun v s s' hv hs hc => hk v s s' hv hs hc v s s' (List.prefix_refl v) hs hc

theorem modifyGet {f : Store → α × Store} {f' : Store → β × Store}
    (h : ∀ v s s', w <+: v → P.Stores v s s' → Chains v Γ s.chain s'.chain →
      ∃ x, v <+: x ∧ post x (f s).1 (f' s').1 ∧ P.Stores x (f s).2 (f' s').2 ∧ (f s).2.chain = s.chain ∧
        (f' s').2.chain = s'.chain) :
    P.Runs side w Γ post (MonadStateOf.modifyGet f) (MonadStateOf.modifyGet f') := by
  intro v s s' hv hs hc
  obtain ⟨x, hx, h, hs₁, hc₁, hc₁'⟩ := h v s s' hv hs hc
  exact ⟨x, hx, .ok h hs₁ hc₁ hc₁'⟩

theorem update {f f' : Store → Store}
    (h : ∀ v s s', w <+: v → P.Stores v s s' → Chains v Γ s.chain s'.chain →
      P.Stores v (f s) (f' s') ∧ (f s).chain = s.chain ∧ (f' s').chain = s'.chain) :
    P.Runs side w Γ (fun _ _ _ => True) (modify f : Exec Unit) (modify f' : Exec Unit) :=
  .modifyGet fun v s s' hv hs hc => ⟨v, List.prefix_refl v, trivial, h v s s' hv hs hc⟩

theorem within {Γ' : List Layer} {chain chain' : Chain} (hp : P.Runs side w Γ' post p p')
    (hchain : Chains w Γ' chain chain') :
    P.Runs side w Γ post (Exec.within chain p) (Exec.within chain' p') := by
  intro v s s' hv hs hc
  obtain ⟨x, hx, hagree⟩ := hp v _ _ hv (hs.withChain chain chain') (hchain.mono hv)
  generalize hr : p { s with chain } = r at hagree
  generalize hr' : p' { s' with chain := chain' } = r' at hagree
  refine ⟨x, hx, ?_⟩
  cases hagree with
  | ok h hs₁ hc₁ hc₁' =>
    rw [Exec.within_ok hr, Exec.within_ok hr']
    exact .ok h (hs₁.withChain _ _) rfl rfl
  | error hs₁ hc₁ hc₁' =>
    rw [Exec.within_error hr, Exec.within_error hr']
    exact .error (hs₁.withChain _ _) rfl rfl
  | first hside =>
    rw [Exec.within_error hr]
    exact .first hside
  | second hside =>
    rw [Exec.within_error hr']
    exact .second hside

theorem further (b' : Bindings Value) (hp : P.Runs side w (.further :: Γ) post p p') :
    P.Runs side w Γ post p (do
      let chain ← Exec.pushFrame b' (← MonadState.get).chain
      Exec.within chain p') := by
  intro v s s' hv hs hc
  let s₁ : Store := { s' with frames := s'.frames.push b', chain := .link s'.frames.size s'.chain }
  have hs₁ : P.Stores v s s₁ := (hs.pushFurther b').withChain s.chain _
  obtain ⟨x, hx, hagree⟩ := hp v s s₁ hv hs₁ (.further _ hc)
  refine ⟨x, hx, ?_⟩
  change P.Agree side x _ _ _ (p s) (Exec.within s₁.chain p' { s' with frames := s'.frames.push b' })
  generalize hr : p s = r at hagree
  generalize hr' : p' s₁ = r' at hagree
  cases hagree with
  | ok h hs₂ hc₂ _ =>
    rw [Exec.within_ok hr']
    exact .ok h (hs₂.withChain _ _) hc₂ rfl
  | error hs₂ hc₂ _ =>
    rw [Exec.within_error hr']
    exact .error (hs₂.withChain _ _) hc₂ rfl
  | first hside => exact .first hside
  | second hside =>
    rw [Exec.within_error hr']
    exact .second hside

theorem blaming (line : Int) (hp : P.Runs side w Γ post p p') :
    P.Runs side w Γ post (Exec.blaming line p) (Exec.blaming line p') := by
  intro v s s' hv hs hc
  obtain ⟨x, hx, hagree⟩ := hp v s s' hv hs hc
  refine ⟨x, hx, ?_⟩
  generalize hr : p s = r at hagree
  generalize hr' : p' s' = r' at hagree
  cases hagree with
  | ok h hs₁ hc₁ hc₁' =>
    rw [Exec.blaming_ok hr, Exec.blaming_ok hr']
    exact .ok h hs₁ hc₁ hc₁'
  | error hs₁ hc₁ hc₁' =>
    rw [Exec.blaming_error hr, Exec.blaming_error hr']
    exact .error hs₁ hc₁ hc₁'
  | first hside =>
    rw [Exec.blaming_error hr]
    exact .first hside
  | second hside =>
    rw [Exec.blaming_error hr']
    exact .second hside

theorem pushFrame {Γ' : List Layer} {outer outer' : Chain} {b b' : Bindings Value}
    (houter : Chains w Γ' outer outer') (hb : P.Contents w b b') :
    P.Runs side w Γ (fun v => Chains v (.shared :: Γ')) (Exec.pushFrame b outer) (Exec.pushFrame b' outer') := by
  apply modifyGet
  intro v s s' hv hs _
  have hx : v <+: v ++ [s'.frames.size] := List.prefix_append _ _
  refine ⟨_, hx, ?_, hs.pushFrame (Contents.mono hb hv), rfl, rfl⟩
  refine .shared ?_ (houter.mono (hv.trans hx))
  rw [hs.size, List.getElem?_append_right (Nat.le_refl _), Nat.sub_self]
  rfl

theorem define (hΓ : Γ.head? ≠ some .further) (name : String) {a a' : Value} (ha : P.Values w a a') :
    P.Runs side w Γ (fun _ _ _ => True) (Exec.define name a) (Exec.define name a') := by
  apply get
  intro v s s' hv hs hc
  apply update
  intro x t t' hx ht _
  exact ⟨ht.define (Coupling.getElem?_mono hx (hc.frame hΓ)) name (ha.mono (hv.trans hx)), rfl, rfl⟩

theorem freshId : P.Runs side w Γ (fun _ i i' => i' = i) Exec.freshId Exec.freshId :=
  modifyGet fun v _ _ _ hs _ => ⟨v, List.prefix_refl v, hs.fresh, hs.freshId, rfl, rfl⟩

theorem newList {as as' : List Value} (has : List.Forall₂ (P.Values w) as as') :
    P.Runs side w Γ P.Values (Exec.newList as.toArray) (Exec.newList as'.toArray) := by
  apply modifyGet
  intro v s s' hv hs _
  refine ⟨v, List.prefix_refl v, ?_, hs.newList (Slots.of_forall₂ (has.imp fun _ _ ha => ha.mono hv)), rfl, rfl⟩
  rw [hs.lists.size_eq]
  exact .list _

theorem newObject {c c' : Class} (hc : P.Classes w c c') :
    P.Runs side w Γ P.Values (Exec.newObject c) (Exec.newObject c') := by
  apply modifyGet
  intro v s s' hv hs _
  refine ⟨v, List.prefix_refl v, ?_, hs.newObject, rfl, rfl⟩
  rw [hs.objects.size_eq]
  exact .object _ (hc.mono hv)

theorem setField (id : Nat) (name : String) {a a' : Value} (ha : P.Values w a a') :
    P.Runs side w Γ (fun _ _ _ => True) (Exec.setField id name a) (Exec.setField id name a') :=
  update fun _ _ _ hv hs _ => ⟨hs.setField id name (ha.mono hv), rfl, rfl⟩

theorem print (t : String) : P.Runs side w Γ (fun _ _ _ => True) (Exec.print t) (Exec.print t) :=
  update fun _ _ _ _ hs _ => ⟨hs.print t, rfl, rfl⟩

theorem of_acts {line : Option Int} (h : ∀ v, w <+: v → Acts line line (P.Values v) (post v) p p') :
    P.Runs side w Γ post p p' := by
  intro v s s' hv hs _
  obtain ⟨l, l', c, hl, ⟨a, a', ha, hr, hr'⟩ | ⟨e, e', he, hr, hr'⟩⟩ := h v hv s s' hs.lists hs.clock
  · rw [hr, hr']
    exact ⟨v, List.prefix_refl v, .ok ha { hs with lists := hl, clock := rfl } rfl rfl⟩
  · obtain rfl := he.eq
    rw [hr, hr']
    exact ⟨v, List.prefix_refl v, .error { hs with lists := hl, clock := rfl } rfl rfl⟩

theorem text {a a' : Value} (ha : P.Values w a a') :
    P.Runs side w Γ (fun _ t t' => t' = t) (Exec.text a) (Exec.text a') :=
  of_acts fun v hv => (Acts.text (Values.lookalike P v) (ha.mono hv) : Acts none none _ _ _ _)

theorem value {a a' : Value} (ha : P.Values w a a') :
    P.Runs side w Γ P.Values (Pure.pure a) (Pure.pure a') := pure fun _ hv => ha.mono hv

theorem findAt (name : Token) (d : Nat) :
    P.Runs side w Γ P.Values (Exec.findAt name d) (Exec.findAt name (past Γ d)) := by
  apply get
  intro v s s' _ hs hc
  have hout := hc.out? d
  simp only [Frames.findAt?]
  generalize s.chain.out? d = c at hout ⊢
  generalize s'.chain.out? (past Γ d) = c' at hout ⊢
  cases hout with
  | none => exact throw _
  | some hframe =>
    have hfind := (hs.frame _ _ hframe).find? Function.injective_id name.lexeme
    simp only [Option.map_some, id_eq] at hfind ⊢
    generalize Bindings.find? _ name.lexeme = a at hfind ⊢
    generalize Bindings.find? _ name.lexeme = a' at hfind ⊢
    cases hfind with
    | none => exact value .nil
    | some ha => exact value ha

theorem assignAt (name : Token) (d : Nat) {a a' : Value} (ha : P.Values w a a') :
    P.Runs side w Γ (fun _ _ _ => True) (Exec.assignAt name a d) (Exec.assignAt name a' (past Γ d)) := by
  apply get
  intro v s s' hv hs hc
  have hout := hc.out? d
  generalize s.chain.out? d = c at hout ⊢
  generalize s'.chain.out? (past Γ d) = c' at hout ⊢
  cases hout with
  | none => exact throw _
  | some hframe =>
    apply update
    intro x t t' hx ht _
    exact ⟨ht.define (Coupling.getElem?_mono hx hframe) name.lexeme (ha.mono (hv.trans hx)), rfl, rfl⟩

theorem find_globals (name : Token) :
    P.Runs side w Γ P.Values (Exec.find name globals) (Exec.find name globals) := by
  apply get
  intro v s s' _ hs _
  have hfind := (hs.frame _ _ hs.top).find? Function.injective_id name.lexeme
  simp only [globals, Frames.find?, id_eq] at hfind ⊢
  generalize (s.frames.frame 0).find? name.lexeme = a at hfind ⊢
  generalize (s'.frames.frame 0).find? name.lexeme = a' at hfind ⊢
  cases hfind with
  | none => exact fault _ _
  | some ha => exact value ha

theorem assign_globals (name : Token) {a a' : Value} (ha : P.Values w a a') :
    P.Runs side w Γ (fun _ _ _ => True) (Exec.assign name a globals) (Exec.assign name a' globals) := by
  apply get
  intro v s s' hv hs _
  have hcontains := (hs.frame _ _ hs.top).contains_eq Function.injective_id name.lexeme
  simp only [globals, Frames.holder?, id_eq] at hcontains ⊢
  rw [hcontains]
  by_cases hheld : (s.frames.frame 0).contains name.lexeme = true
  · simp only [hheld, if_true]
    apply update
    intro x t t' hx ht _
    exact ⟨ht.define ht.top name.lexeme (ha.mono (hv.trans hx)), rfl, rfl⟩
  · simp only [hheld]
    exact fault _ _

theorem read (name : Token) (hops : Option Nat) :
    P.Runs side w Γ P.Values (Addressing.byDistance.read name hops)
      (Addressing.byDistance.read name (hops.map (past Γ))) := by
  cases hops with
  | none => exact find_globals name
  | some d => exact findAt name d

theorem write (name : Token) (hops : Option Nat) {a a' : Value} (ha : P.Values w a a') :
    P.Runs side w Γ (fun _ _ _ => True) (Addressing.byDistance.write name hops a)
      (Addressing.byDistance.write name (hops.map (past Γ)) a') := by
  cases hops with
  | none => exact assign_globals name ha
  | some d => exact assignAt name d ha

end Runs

inductive Outcomes (P : Pairing) (w : List Nat) : Outcome → Outcome → Prop
  | normal : Outcomes P w .normal .normal
  | returned {a a' : Value} (ha : P.Values w a a') : Outcomes P w (.returned a) (.returned a')
  | broken : Outcomes P w .broken .broken
  | continued : Outcomes P w .continued .continued

variable {P : Pairing} {side : Side} {w : List Nat} {Γ : List Layer}

theorem Outcomes.value {o o' : Outcome} (h : P.Outcomes w o o') : P.Values w o.value o'.value := by
  cases h with
  | returned ha => exact ha
  | _ => exact .nil

theorem Outcomes.mono {v : List Nat} {o o' : Outcome} (h : P.Outcomes w o o') (hv : w <+: v) :
    P.Outcomes v o o' := by
  cases h with
  | normal => exact .normal
  | returned ha => exact .returned (ha.mono hv)
  | broken => exact .broken
  | continued => exact .continued

theorem passes_runs {test test' : Exec Bool} {body body' : Exec Outcome} {step step' : Exec Unit}
    (htest : P.Runs side w Γ (fun _ x x' => x' = x) test test') (hbody : P.Runs side w Γ P.Outcomes body body')
    (hstep : P.Runs side w Γ (fun _ _ _ => True) step step') {n n' : Nat} (h : Enough side n n') :
    P.Runs side w Γ P.Outcomes (Exec.passes test body step n) (Exec.passes test' body' step' n') := by
  induction n generalizing w n' with
  | zero =>
    obtain (⟨hside, -⟩ | ⟨hside, rfl⟩) | ⟨m, m', hn, -⟩ := h.cases
    · exact .first hside
    · exact .second hside
    · cases hn
  | succ n ih =>
    obtain (⟨-, hn⟩ | ⟨hside, rfl⟩) | ⟨m, m', hn, rfl, hm⟩ := h.cases
    · cases hn
    · exact .second hside
    · obtain rfl := Nat.succ.inj hn
      simp only [Exec.passes_succ]
      apply htest.bind
      rintro v _ go hv rfl
      cases go with
      | false => exact .pure fun _ _ => .normal
      | true =>
        apply (hbody.mono hv).bind
        intro x o o' hx ho
        have hnext := (hstep.mono (hv.trans hx)).bind fun y _ _ hy _ =>
          ih (htest.mono (hv.trans (hx.trans hy))) (hbody.mono (hv.trans (hx.trans hy)))
            (hstep.mono (hv.trans (hx.trans hy))) hm
        cases ho with
        | broken => exact .pure fun _ _ => .normal
        | returned ha => exact .pure fun _ hy => .returned (ha.mono hy)
        | normal => exact hnext
        | continued => exact hnext

end Pairing

end LoxLang
