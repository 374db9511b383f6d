import LoxLang.Native
import LoxLang.Session
import LoxLang.Value.Operators
import LoxLang.Proofs.Stopping
import LoxLang.Proofs.Running.Related

namespace LoxLang

inductive Value.Alike : Value → Value → Prop
  | nil : Alike .nil .nil
  | bool (b : Bool) : Alike (.bool b) (.bool b)
  | number (x : Float) : Alike (.number x) (.number x)
  | text (t : String) : Alike (.text t) (.text t)
  | list (id : Nat) : Alike (.list id) (.list id)
  | native (n : Native) : Alike (.native n) (.native n)
  | function (id : Nat) {r r' : Routine} (h : r'.name = r.name) : Alike (.function id r) (.function id r')
  | classDef (id : Nat) {c c' : Class} (h : c'.name = c.name) : Alike (.classDef id c) (.classDef id c')
  | object (id : Nat) {c c' : Class} (h : c'.name = c.name) : Alike (.object id c) (.object id c')

namespace Value.Alike

variable {a a' b b' : Value} {lists lists' : Array (Array Value)}

theorem refl (a : Value) : Alike a a := by
  cases a with
  | function id r => exact .function id rfl
  | classDef id c => exact .classDef id rfl
  | object id c => exact .object id rfl
  | _ => constructor

theorem truthy_eq (h : Alike a a') : a'.truthy = a.truthy := by
  cases h <;> rfl

theorem same_eq (h : Alike a a') (h' : Alike b b') : a'.same b' = a.same b := by
  cases h <;> cases h' <;> rfl

theorem textWithin_eq (hl : Slots (Slots Alike) lists lists') (depth : Nat) (h : Alike a a') :
    a'.textWithin lists' depth = a.textWithin lists depth := by
  induction depth generalizing a a' with
  | zero => cases h <;> simp_all [textWithin]
  | succ depth ih =>
    cases h with
    | list id =>
      have hitems := (hl.getD Slots.empty id).forall₂
      have htexts : ∀ xs xs', List.Forall₂ Alike xs xs' →
          xs'.mapM (textWithin lists' depth) = xs.mapM (textWithin lists depth) := by
        intro xs xs' hxs
        induction hxs with
        | nil => rfl
        | cons hab _ ihs => simp only [List.mapM_cons, ih hab, ihs]
      simp only [textWithin, htexts _ _ hitems]
    | _ => simp_all [textWithin]

theorem text?_eq (hl : Slots (Slots Alike) lists lists') (h : Alike a a') : a'.text? lists' = a.text? lists := by
  rw [text?, hl.size_eq]
  exact h.textWithin_eq hl _

end Value.Alike

/-- A relation between values that look alike, which holds of each value that nothing more belongs to. -/
structure Lookalike (R : Value → Value → Prop) : Prop where
  alike : ∀ {a a'}, R a a' → Value.Alike a a'
  nil : R .nil .nil
  bool : ∀ b, R (.bool b) (.bool b)
  number : ∀ x, R (.number x) (.number x)
  text : ∀ t, R (.text t) (.text t)

namespace Lookalike

variable {R : Value → Value → Prop} (hR : Lookalike R)

include hR

theorem ofLiteral (l : Literal) : R (.ofLiteral l) (.ofLiteral l) := by
  cases l with
  | nil => exact hR.nil
  | bool b => exact hR.bool b
  | number x => exact hR.number x
  | text t => exact hR.text t

theorem text?_eq {lists lists' : Array (Array Value)} (hl : Slots (Slots R) lists lists') {a a' : Value} (ha : R a a') :
    a'.text? lists' = a.text? lists :=
  (hR.alike ha).text?_eq (hl.mono fun _ _ h => h.mono fun _ _ => hR.alike)

theorem globalTexts_eq {s s' : Store} (hglobals : List.Forall₂ (fun e e' => e'.1 = e.1 ∧ R e.2 e'.2)
      (s.frames.frame 0).entries (s'.frames.frame 0).entries) (hl : Slots (Slots R) s.lists s'.lists) (j j' : Journal) :
    Session.globalTexts ⟨j', s'⟩ = Session.globalTexts ⟨j, s⟩ := by
  have hsorted := Bindings.sorted_related (fun _ _ he => he.1) hglobals
  unfold Session.globalTexts globals Chain.frame
  generalize (s.frames.frame 0).sorted = es at hsorted
  generalize (s'.frames.frame 0).sorted = es' at hsorted
  induction hsorted with
  | nil => rfl
  | @cons e e' es es' he _ ih =>
    obtain ⟨name, v⟩ := e
    obtain ⟨_, v'⟩ := e'
    obtain ⟨rfl, hv⟩ := he
    simp only [List.filterMap_cons, hR.text?_eq hl hv, ih]

end Lookalike

/-- One fault, on the line of each action, or no end for both. -/
inductive Stop.Alike (line line' : Option Int) : Stop → Stop → Prop
  | fault (cause : Fault.Cause) : Alike line line' (.fault ⟨cause, line⟩) (.fault ⟨cause, line'⟩)
  | endless : Alike line line' .endless .endless

theorem Stop.Alike.eq {line : Option Int} {e e' : Stop} (h : Alike line line e e') : e' = e := by
  cases h <;> rfl

/-- From stores with related lists and one clock, the two actions change the lists and the clock only, keep the lists
related and the clock one, and come to related results or to the same fault, which the one blames on the first line
and the other on the second. -/
def Acts {α β : Type} (line line' : Option Int) (R : Value → Value → Prop) (post : α → β → Prop) (p : Exec α)
    (p' : Exec β) : Prop :=
  ∀ s s', Slots (Slots R) s.lists s'.lists → s'.clock = s.clock → ∃ l l' c, Slots (Slots R) l l' ∧
    ((∃ a a', post a a' ∧ p s = .ok a { s with lists := l, clock := c } ∧
        p' s' = .ok a' { s' with lists := l', clock := c }) ∨
      ∃ e e', Stop.Alike line line' e e' ∧ p s = .error e { s with lists := l, clock := c } ∧
        p' s' = .error e' { s' with lists := l', clock := c })

namespace Acts

open Stopping

variable {α β γ δ : Type} {line line' : Option Int} {R : Value → Value → Prop} {post : α → β → Prop}
  {post' : γ → δ → Prop} {p : Exec α} {p' : Exec β}

theorem pure {a : α} {a' : β} (h : post a a') : Acts line line' R post (Pure.pure a) (Pure.pure a') :=
  fun s s' hl hc => ⟨s.lists, s'.lists, s.clock, hl, .inl ⟨a, a', h, rfl, hc ▸ rfl⟩⟩

theorem fault (cause : Fault.Cause) :
    Acts line line' R post (Exec.fault cause line) (Exec.fault cause line') :=
  fun s s' hl hc => ⟨s.lists, s'.lists, s.clock, hl, .inr ⟨_, _, .fault cause, rfl, hc ▸ rfl⟩⟩

theorem bind {k : α → Exec γ} {k' : β → Exec δ} (hp : Acts line line' R post p p')
    (hk : ∀ a a', post a a' → Acts line line' R post' (k a) (k' a')) :
    Acts line line' R post' (p >>= k) (p' >>= k') := by
  intro s s' hl hc
  obtain ⟨l, l', c, hl, ⟨a, a', h, hr, hr'⟩ | ⟨e, e', he, hr, hr'⟩⟩ := hp s s' hl hc
  · rw [bind_ok hr, bind_ok hr']
    exact hk a a' h _ _ hl rfl
  · rw [bind_error hr, bind_error hr']
    exact ⟨l, l', c, hl, .inr ⟨e, e', he, rfl, rfl⟩⟩

theorem clock : Acts line line' R (fun x x' => x' = x) Exec.clock Exec.clock := fun s s' hl hc =>
  ⟨s.lists, s'.lists, s.clock.advance, hl, .inl ⟨s.clock.next, s'.clock.next, by rw [hc], rfl, hc ▸ rfl⟩⟩

theorem items (id : Nat) : Acts line line' R (Slots R) (Exec.items id) (Exec.items id) :=
  fun s s' hl hc => ⟨s.lists, s'.lists, s.clock, hl,
    .inl ⟨s.items id, s'.items id, hl.getD Slots.empty id, rfl, hc ▸ rfl⟩⟩

theorem modifyItems (id : Nat) {f f' : Array Value → Array Value}
    (hf : ∀ xs ys, Slots R xs ys → Slots R (f xs) (f' ys)) :
    Acts line line' R (fun _ _ => True) (Exec.modifyItems id f) (Exec.modifyItems id f') :=
  fun s _ hl hc => ⟨_, _, s.clock, hl.modify hf id, .inl ⟨(), (), trivial, rfl, hc ▸ rfl⟩⟩

variable (hR : Lookalike R) {op op' : Token} {a a' b b' : Value}

include hR

theorem text (ha : R a a') : Acts line line' R (fun t t' => t' = t) (Exec.text a) (Exec.text a') := by
  intro s s' hl hc
  have htext := hR.text?_eq hl ha
  refine ⟨s.lists, s'.lists, s.clock, hl, ?_⟩
  simp only [Exec.text, get_bind, htext]
  cases a.text? s.lists with
  | none => exact .inr ⟨_, _, .endless, rfl, hc ▸ rfl⟩
  | some t => exact .inl ⟨t, t, rfl, rfl, hc ▸ rfl⟩

theorem unary (hop : op'.kind = op.kind) (ha : R a a') :
    Acts op.line op'.line R R (a.unary op) (a'.unary op') := by
  have halike := hR.alike ha
  unfold Value.unary
  rw [hop]
  cases op.kind with
  | bang =>
    simp only [halike.truthy_eq]
    exact pure (hR.bool _)
  | minus =>
    cases halike with
    | number x => exact pure (hR.number _)
    | _ => exact fault _
  | _ => exact fault _

theorem arithmetic (hop : op'.kind = op.kind) (x y : Float) :
    Acts op.line op'.line R R (Value.arithmetic op x y) (Value.arithmetic op' x y) := by
  unfold Value.arithmetic
  rw [hop]
  split
  · exact pure (hR.number _)
  · exact pure (hR.number _)
  · split
    · exact fault _
    · exact pure (hR.number _)
  · exact pure (hR.bool _)
  · exact pure (hR.bool _)
  · exact pure (hR.bool _)
  · exact pure (hR.bool _)
  · exact fault _

theorem appended {f : String → String} (ha : R a a') :
    Acts line line' R R (do return .text (f (← Exec.text a))) (do return .text (f (← Exec.text a'))) := by
  refine (text hR ha).bind ?_
  rintro _ t rfl
  exact pure (hR.text _)

theorem plus (ha : R a a') (hb : R b b') : Acts op.line op'.line R R (Value.plus op a b) (Value.plus op' a' b') := by
  cases hR.alike ha with
  | text s =>
    cases hR.alike hb with
    | text t => exact pure (hR.text _)
    | _ => exact appended hR hb
  | number x =>
    cases hR.alike hb with
    | number y => exact pure (hR.number _)
    | text t => exact appended hR ha
    | _ => exact fault _
  | _ =>
    cases hR.alike hb with
    | text t => exact appended hR ha
    | _ => exact fault _

theorem binary (hop : op'.kind = op.kind) (ha : R a a') (hb : R b b') :
    Acts op.line op'.line R R (Value.binary op a b) (Value.binary op' a' b') := by
  unfold Value.binary
  rw [hop, (hR.alike ha).same_eq (hR.alike hb)]
  split
  · exact pure (hR.bool _)
  split
  · exact pure (hR.bool _)
  split
  · exact plus hR ha hb
  split
  · cases hR.alike ha with
    | number x =>
      cases hR.alike hb with
      | number y => exact arithmetic hR hop x y
      | _ => exact fault _
    | _ => exact fault _
  · exact fault _

theorem asList (n : Native) (ha : R a a') : Acts none none R (fun i i' => i' = i) (n.asList a) (n.asList a') := by
  cases hR.alike ha with
  | list id => exact pure rfl
  | _ => exact fault _

theorem asIndex (n : Native) (size : Nat) (ha : R a a') :
    Acts none none R (fun i i' => i' = i) (n.asIndex size a) (n.asIndex size a') := by
  cases hR.alike ha with
  | number x =>
    simp only [Native.asIndex]
    cases Number.toInt? x with
    | none => exact fault _
    | some i =>
      by_cases hi : 0 ≤ i ∧ i < size
      · simp only [hi, and_self, if_true]
        exact pure rfl
      · simp only [hi, if_false]
        exact fault _
  | _ => exact fault _

omit hR in
theorem argument {as as' : List Value} (has : List.Forall₂ R as as') {i : Nat} (hi : i < as.length) :
    Acts none none R R (Native.argument as i) (Native.argument as' i) := by
  have hi' : i < as'.length := has.length_eq ▸ hi
  unfold Native.argument
  rw [List.getElem?_eq_getElem hi, List.getElem?_eq_getElem hi']
  exact pure (has.get hi hi')

variable {as as' : List Value} (has : List.Forall₂ R as as')

include has

theorem place (n : Native) (hlen : 2 ≤ as.length) :
    Acts none none R (fun x x' => x' = x) (n.place as) (n.place as') := by
  refine (argument has (by omega)).bind fun a a' ha => (asList hR n ha).bind ?_
  rintro _ id rfl
  refine (argument has (by omega)).bind fun b b' hb => (items id).bind fun xs xs' hxs => ?_
  rw [hxs.size_eq]
  refine (asIndex hR n xs.size hb).bind ?_
  rintro _ i rfl
  exact pure rfl

theorem native (n : Native) (hlen : as.length = n.arity) : Acts none none R R (n.apply as) (n.apply as') := by
  cases n with
  | clock =>
    refine clock.bind ?_
    rintro _ x rfl
    exact pure (hR.number x)
  | get =>
    refine (place hR has .get (by simp [hlen, Native.arity])).bind ?_
    rintro ⟨id, i⟩ _ rfl
    exact (items id).bind fun xs xs' hxs => pure (hxs.getD hR.nil i)
  | set =>
    have h2 : 2 < as.length := by simp [hlen, Native.arity]
    refine (place hR has .set (by omega)).bind ?_
    rintro ⟨id, i⟩ _ rfl
    refine (argument has h2).bind fun b b' hb => (items id).bind fun xs xs' hxs => ?_
    exact (modifyItems id fun us us' hus => hus.set hb i).bind fun _ _ _ => pure (hxs.getD hR.nil i)
  | add =>
    have h1 : 1 < as.length := by simp [hlen, Native.arity]
    refine (argument has (by omega)).bind fun a a' ha => (asList hR .add ha).bind ?_
    rintro _ id rfl
    refine (argument has h1).bind fun b b' hb => ?_
    exact (modifyItems id fun us us' hus => hus.push hb).bind fun _ _ _ => pure hR.nil
  | size =>
    refine (argument has (by simp [hlen, Native.arity])).bind fun a a' ha => (asList hR .size ha).bind ?_
    rintro _ id rfl
    refine (items id).bind fun xs xs' hxs => ?_
    rw [hxs.size_eq]
    exact pure (hR.number _)

end Acts

def Value.Itself (V : Value → Prop) (a a' : Value) : Prop := a' = a ∧ V a

namespace Value.Itself

variable {V : Value → Prop} {lists : Array (Array Value)}

theorem lookalike (nil : V .nil) (bool : ∀ b, V (.bool b)) (number : ∀ x, V (.number x)) (text : ∀ t, V (.text t)) :
    Lookalike (Itself V) where
  alike := fun h => h.1 ▸ .refl _
  nil := ⟨rfl, nil⟩
  bool b := ⟨rfl, bool b⟩
  number x := ⟨rfl, number x⟩
  text t := ⟨rfl, text t⟩

theorem lookalike_true : Lookalike (Itself fun _ => True) :=
  lookalike trivial (fun _ => trivial) (fun _ => trivial) fun _ => trivial

theorem forall₂ {as : List Value} (h : ∀ a ∈ as, V a) : List.Forall₂ (Itself V) as as :=
  List.forall₂_same.2 fun a ha => ⟨rfl, h a ha⟩

theorem slots_iff : Slots (Slots (Itself V)) lists lists ↔ ∀ id : Nat, ∀ v ∈ lists[id]?.getD #[], V v := by
  constructor
  · intro h id v hv
    have hitems := (h.getD Slots.empty id).forall₂
    exact (List.forall₂_same.1 hitems v (by simpa using hv)).2
  · intro h id
    cases hxs : lists[id]? with
    | none => exact .none
    | some xs =>
      refine .some fun i => ?_
      cases hi : xs[i]? with
      | none => exact .none
      | some a => exact .some ⟨rfl, h id a (by simpa [hxs] using Array.mem_of_getElem? hi)⟩

end Value.Itself

/-- An action on its own: what holds of the values in the lists holds of them however it ends. -/
theorem Acts.alone {α : Type} {line : Option Int} {V : Value → Prop} {post : α → α → Prop} {q : Exec α}
    (h : Acts line line (Value.Itself V) post q q) {s : Store} (hs : ∀ id, ∀ v ∈ s.items id, V v) :
    ∃ (l : Array (Array Value)) (c : Clock), (∀ id : Nat, ∀ v ∈ l[id]?.getD #[], V v) ∧
      ((∃ a, post a a ∧ q s = .ok a { s with lists := l, clock := c }) ∨
        ∃ e, Stop.Alike line line e e ∧ q s = .error e { s with lists := l, clock := c }) := by
  obtain ⟨l, l', c, hl, hends⟩ := h s s (Value.Itself.slots_iff.2 hs) rfl
  have hsame : ({ s with lists := l, clock := c } : Store) = { s with lists := l', clock := c } → l = l' :=
    congrArg Store.lists
  obtain ⟨a, a', hpost, hq, hq'⟩ | ⟨e, e', he, hq, hq'⟩ := hends
  · obtain ⟨rfl, hstore⟩ := EStateM.Result.ok.inj (hq.symm.trans hq')
    obtain rfl := hsame hstore
    exact ⟨l, c, Value.Itself.slots_iff.1 hl, .inl ⟨a, hpost, hq⟩⟩
  · obtain ⟨rfl, hstore⟩ := EStateM.Result.error.inj (hq.symm.trans hq')
    obtain rfl := hsame hstore
    exact ⟨l, c, Value.Itself.slots_iff.1 hl, .inr ⟨e, he, hq⟩⟩

end LoxLang
