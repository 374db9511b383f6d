import LoxLang.Proofs.Stopping
import LoxLang.Proofs.Running.Stores

namespace LoxLang

def Stop.blamed (line : Int) : Stop → Stop
  | .fault ⟨cause, none⟩ => .fault ⟨cause, some line⟩
  | e => e

namespace Exec

variable {α : Type} {p : Exec α} {chain : Chain} {line : Int} {s t : Store} {a : α} {e : Stop}

theorem within_ok (h : p { s with chain } = .ok a t) :
    within chain p s = .ok a { t with chain := s.chain } := by
  simp only [within, h]

theorem within_error (h : p { s with chain } = .error e t) :
    within chain p s = .error e { t with chain := s.chain } := by
  simp only [within, h]

theorem blaming_ok (h : p s = .ok a t) : blaming line p s = .ok a t := by
  simp only [blaming, h]

theorem blaming_error (h : p s = .error e t) : blaming line p s = .error (e.blamed line) t := by
  simp only [blaming, h]
  obtain ⟨cause, _ | line⟩ | d | _ := e <;> rfl

end Exec

namespace Coupling

open LoxLang.Stopping

variable {α β γ δ : Type}

inductive Agree (C : Coupling) (w : List C.Label) (chain : Chain) (post : α → β → Prop) :
    EStateM.Result Stop Store α → EStateM.Result Stop Store β → Prop
  | ok {a : α} {a' : β} {s s' : Store} (h : post a a') (hs : C.Stores w s s') (hc : s.chain = chain) :
    Agree C w chain post (.ok a s) (.ok a' s')
  | error {e : Stop} {s s' : Store} (he : C.allowed e) (hs : C.Stores w s s') (hc : s.chain = chain) :
    Agree C w chain post (.error e s) (.error e s')
  | escape {e : Stop} {s : Store} {r : EStateM.Result Stop Store β} (he : C.escapes e) :
    Agree C w chain post (.error e s) r

theorem Agree.eq {C : Coupling} (hC : C.Identical) (hescapes : ∀ e, ¬ C.escapes e) {w : List C.Label}
    {chain : Chain} {r r' : EStateM.Result Stop Store Unit}
    (h : C.Agree w chain (fun _ _ => True) r r') : r' = r := by
  cases h with
  | ok _ hs _ => rw [hs.eq hC]
  | error _ hs _ => rw [hs.eq hC]
  | escape he => exact absurd he (hescapes _)

/-- From any stores with at least the frames of `w`, on a chain of these labels, the two actions agree;
the first does so for each oracle that fits all frames made until then. -/
def Runs (C : Coupling) (w Γ : List C.Label) (post : List C.Label → α → β → Prop)
    (p : C.Oracle → Exec α) (p' : Exec β) : Prop :=
  ∀ v s s', w <+: v → C.Stores v s s' → C.Chains v s.chain Γ →
    ∃ x r, v <+: x ∧ (∀ o, C.fits o x → p o s = r) ∧ C.Agree x s.chain (post x) r (p' s')

namespace Runs

variable {C : Coupling} {w Γ : List C.Label} {P : List C.Label → α → β → Prop}
  {Q : List C.Label → γ → δ → Prop} {p : C.Oracle → Exec α} {p' : Exec β}

theorem mono {v : List C.Label} (h : C.Runs w Γ P p p') (hv : w <+: v) : C.Runs v Γ P p p' :=
  fun x s s' hx => h x s s' (hv.trans hx)

theorem pure {a : α} {a' : β} (h : ∀ v, w <+: v → P v a a') :
    C.Runs w Γ P (fun _ => Pure.pure a) (Pure.pure a') :=
  fun v s _ hv hs _ => ⟨v, .ok a s, List.prefix_refl v, fun _ _ => rfl, .ok (h v hv) hs rfl⟩

theorem throw {e : Stop} (he : C.allowed e) :
    C.Runs w Γ P (fun _ => MonadExcept.throw e) (MonadExcept.throw e) :=
  fun v s _ _ hs _ => ⟨v, .error e s, List.prefix_refl v, fun _ _ => rfl, .error he hs rfl⟩

theorem fault (cause : Fault.Cause) (line : Option Int) :
    C.Runs w Γ P (fun _ => Exec.fault cause line) (Exec.fault cause line) := .throw (C.allowed_fault _)

theorem endless : C.Runs w Γ P (fun _ => Exec.endless) Exec.endless := .throw C.allowed_endless

theorem bind {k : C.Oracle → α → Exec γ} {k' : β → Exec δ} (hp : C.Runs w Γ P p p')
    (hk : ∀ v a a', w <+: v → P v a a' → C.Runs v Γ Q (fun o => k o a) (k' a')) :
    C.Runs w Γ Q (fun o => p o >>= k o) (p' >>= k') := by
  intro v s s' hv hs hc
  obtain ⟨x, r, hx, hr, hagree⟩ := hp v s s' hv hs hc
  generalize hr' : p' s' = r' at hagree
  cases hagree with
  | ok h hs₁ hc₁ =>
    obtain ⟨y, q, hy, hq, hagree⟩ := hk x _ _ (hv.trans hx) h x _ _ (List.prefix_refl x) hs₁
      (hc₁ ▸ hc.mono hx)
    refine ⟨y, q, hx.trans hy, fun o ho => ?_, ?_⟩
    · exact (bind_ok (hr o (C.fits_mono hy ho))).trans (hq o ho)
    · rw [bind_ok hr', ← hc₁]
      exact hagree
  | @error e s₁ s₁' he hs₁ hc₁ =>
    refine ⟨x, .error e s₁, hx, fun o ho => bind_error (hr o ho), ?_⟩
    rw [bind_error hr']
    exact .error he hs₁ hc₁
  | @escape e s₁ _ he => exact ⟨x, .error e s₁, hx, fun o ho => bind_error (hr o ho), .escape he⟩

/-- After a look at the stores, what is said of them must still hold when there are more frames. -/
theorem get {k : C.Oracle → Store → Exec γ} {k' : Store → Exec δ}
    (hk : ∀ v s s', w <+: v → C.Stores v s s' → C.Chains v s.chain Γ →
      C.Runs v Γ Q (fun o => k o s) (k' s')) :
    C.Runs w Γ Q (fun o => (MonadState.get : Exec Store) >>= k o) ((MonadState.get : Exec Store) >>= k') :=
  fun v s s' hv hs hc => hk v s s' hv hs hc v s s' (List.prefix_refl v) hs hc

theorem modifyGet {f : Store → α × Store} {f' : Store → β × Store}
    (h : ∀ v s s', w <+: v → C.Stores v s s' → C.Chains v s.chain Γ →
      P v (f s).1 (f' s').1 ∧ C.Stores v (f s).2 (f' s').2 ∧ (f s).2.chain = s.chain) :
    C.Runs w Γ P (fun _ => MonadStateOf.modifyGet f) (MonadStateOf.modifyGet f') := by
  intro v s s' hv hs hc
  obtain ⟨hP, hs₁, hc₁⟩ := h v s s' hv hs hc
  exact ⟨v, .ok (f s).1 (f s).2, List.prefix_refl v, fun _ _ => rfl, .ok hP hs₁ hc₁⟩

theorem update {f f' : Store → Store}
    (h : ∀ v s s', w <+: v → C.Stores v s s' → C.Chains v s.chain Γ →
      C.Stores v (f s) (f' s') ∧ (f s).chain = s.chain) :
    C.Runs w Γ (fun _ _ _ => True) (fun _ => (modify f : Exec Unit)) (modify f' : Exec Unit) :=
  .modifyGet fun v s s' hv hs hc => ⟨trivial, h v s s' hv hs hc⟩

theorem within {Γ' : List C.Label} {chain : Chain} (hp : C.Runs w Γ' P p p')
    (hchain : C.Chains w chain Γ') :
    C.Runs w Γ P (fun o => Exec.within chain (p o)) (Exec.within chain p') := by
  intro v s s' hv hs hc
  obtain ⟨x, r, hx, hr, hagree⟩ := hp v _ _ hv (hs.withChain chain) (hchain.mono hv)
  generalize hr' : p' { s' with chain } = r' at hagree
  cases hagree with
  | ok h hs₁ hc₁ =>
    refine ⟨x, _, hx, fun o ho => Exec.within_ok (hr o ho), ?_⟩
    rw [Exec.within_ok hr', hs.chain]
    exact .ok h (hs₁.withChain s.chain) rfl
  | error he hs₁ hc₁ =>
    refine ⟨x, _, hx, fun o ho => Exec.within_error (hr o ho), ?_⟩
    rw [Exec.within_error hr', hs.chain]
    exact .error he (hs₁.withChain s.chain) rfl
  | escape he => exact ⟨x, _, hx, fun o ho => Exec.within_error (hr o ho), .escape he⟩

theorem blaming (line : Int) (hp : C.Runs w Γ P p p') :
    C.Runs w Γ P (fun o => Exec.blaming line (p o)) (Exec.blaming line p') := by
  intro v s s' hv hs hc
  obtain ⟨x, r, hx, hr, hagree⟩ := hp v s s' hv hs hc
  generalize hr' : p' s' = r' at hagree
  cases hagree with
  | ok h hs₁ hc₁ =>
    refine ⟨x, _, hx, fun o ho => Exec.blaming_ok (hr o ho), ?_⟩
    rw [Exec.blaming_ok hr']
    exact .ok h hs₁ hc₁
  | @error e _ _ he hs₁ hc₁ =>
    refine ⟨x, _, hx, fun o ho => Exec.blaming_error (hr o ho), ?_⟩
    rw [Exec.blaming_error hr']
    refine .error ?_ hs₁ hc₁
    unfold Stop.blamed
    split
    · exact C.allowed_fault _
    · exact he
  | @escape e _ _ he =>
    refine ⟨x, _, hx, fun o ho => Exec.blaming_error (hr o ho), .escape ?_⟩
    unfold Stop.blamed
    split
    · exact C.escapes_fault he
    · exact he

theorem pushFrame {Γ' : List C.Label} {outer : Chain} (ℓ : C.Label) {b b' : Bindings Value}
    (houter : C.Chains w outer Γ') (hb : C.Contents w ℓ b b') :
    C.Runs w Γ (fun v c c' => c' = c ∧ C.Chains v c (ℓ :: Γ')) (fun _ => Exec.pushFrame b outer)
      (Exec.pushFrame b' outer) := by
  intro v s s' hv hs hc
  have hs₁ := hs.pushFrame (ℓ := ℓ) (Contents.mono hb hv)
  refine ⟨v ++ [ℓ], _, List.prefix_append _ _, fun _ _ => rfl, .ok ⟨?_, ?_⟩ hs₁ rfl⟩
  · rw [hs.size, hs.size']
  · apply Chains.link _ (houter.mono (hv.trans (List.prefix_append _ _)))
    rw [hs.size, List.getElem?_append_right (Nat.le_refl _), Nat.sub_self]
    rfl

theorem define {name name' : Token} {a a' : Value} (hname : C.Declared (C.head Γ) name name')
    (ha : C.Values w a a') :
    C.Runs w Γ (fun _ _ _ => True) (fun _ => Exec.define name.lexeme a) (Exec.define name'.lexeme a') := by
  apply get
  intro v s s' hv hs hc
  rw [hs.chain, hname.1]
  apply update
  intro x t t' hx ht _
  exact ⟨ht.define (getElem?_mono hx hc.frame) hname.2 (ha.mono (hv.trans hx)), rfl⟩

theorem freshId : C.Runs w Γ (fun _ i i' => i' = i) (fun _ => Exec.freshId) Exec.freshId :=
  modifyGet fun _ _ _ _ hs _ => ⟨hs.fresh, hs.freshId, rfl⟩

theorem newList {as as' : List Value} (has : List.Forall₂ (C.Values w) as as') :
    C.Runs w Γ C.Values (fun _ => Exec.newList as.toArray) (Exec.newList as'.toArray) := by
  apply modifyGet
  intro v s s' hv hs _
  refine ⟨?_, hs.newList (Slots.of_forall₂ (has.imp fun _ _ ha => ha.mono hv)), rfl⟩
  rw [hs.lists.size_eq]
  exact .list _

theorem newObject {c c' : Class} (hc : C.Classes w c c') :
    C.Runs w Γ C.Values (fun _ => Exec.newObject c) (Exec.newObject c') := by
  apply modifyGet
  intro v s s' hv hs _
  refine ⟨?_, hs.newObject, rfl⟩
  rw [hs.objects.size_eq]
  exact .object _ (hc.mono hv)

theorem setField (id : Nat) (name : String) {a a' : Value} (ha : C.Values w a a') :
    C.Runs w Γ (fun _ _ _ => True) (fun _ => Exec.setField id name a) (Exec.setField id name a') :=
  update fun _ _ _ hv hs _ => ⟨hs.setField id name (ha.mono hv), rfl⟩

theorem print (t : String) :
    C.Runs w Γ (fun _ _ _ => True) (fun _ => Exec.print t) (Exec.print t) :=
  update fun _ _ _ _ hs _ => ⟨hs.print t, rfl⟩

theorem text {a a' : Value} (ha : C.Values w a a') :
    C.Runs w Γ (fun _ t t' => t' = t) (fun _ => Exec.text a) (Exec.text a') := by
  apply get
  intro v s s' hv hs _
  rw [(Values.lookalike C v).text?_eq hs.lists (ha.mono hv)]
  cases a.text? s.lists with
  | none => exact endless
  | some t => exact .pure fun _ _ => rfl

end Runs

end Coupling

end LoxLang
