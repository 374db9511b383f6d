import LoxLang.Evaluator
import LoxLang.Proofs.Stopping
import LoxLang.Proofs.Bindings
import LoxLang.Proofs.Running.Operators

namespace LoxLang

section lawful

variable (law : Routine → Prop)

/-- The methods of a class keep to the law, and the one of the right name initializes. -/
def Class.Lawful (c : Class) : Prop :=
  ∀ name r, c.methods.find? name = some r → law r ∧ r.isInitializer = decide (name = initializerName)

inductive Value.Lawful : Value → Prop
  | nil : Value.Lawful .nil
  | bool (b : Bool) : Value.Lawful (.bool b)
  | number (x : Float) : Value.Lawful (.number x)
  | text (s : String) : Value.Lawful (.text s)
  | list (id : Nat) : Value.Lawful (.list id)
  | native (n : Native) : Value.Lawful (.native n)
  | function (id : Nat) {r : Routine} (hr : law r) : Value.Lawful (.function id r)
  | classDef (id : Nat) {c : Class} (hc : c.Lawful law) : Value.Lawful (.classDef id c)
  | object (id : Nat) {c : Class} (hc : c.Lawful law) : Value.Lawful (.object id c)

structure Store.Lawful (s : Store) : Prop where
  frames : ∀ f name v, (s.frames.frame f).find? name = some v → v.Lawful law
  lists : ∀ id, ∀ v ∈ s.items id, v.Lawful law
  fields : ∀ id name v, (s.fields id).find? name = some v → v.Lawful law

/-- From a lawful store the action comes to a lawful one, however it ends. -/
def Exec.Keeps {α : Type} (P : α → Prop) (q : Exec α) : Prop :=
  ∀ s : Store, s.Lawful law → (∀ a t, q s = .ok a t → t.Lawful law ∧ P a) ∧ ∀ e t, q s = .error e t → t.Lawful law

end lawful

variable {law : Routine → Prop}

theorem Value.Lawful.lookalike (law : Routine → Prop) : Lookalike (Value.Itself (·.Lawful law)) :=
  Value.Itself.lookalike .nil .bool .number .text

theorem Class.Lawful.initializer {c : Class} (h : c.Lawful law) {r : Routine} (hr : c.initializer? = some r) :
    law r ∧ r.isInitializer = true := by
  obtain ⟨hlaw, hinit⟩ := h initializerName r hr
  exact ⟨hlaw, by simp [hinit]⟩

theorem Store.Lawful.congr {s t : Store} (h : s.Lawful law) (hframes : t.frames = s.frames)
    (hlists : t.lists = s.lists) (hobjects : t.objects = s.objects) : t.Lawful law :=
  ⟨fun f name v hv => h.frames f name v (hframes ▸ hv),
    fun id v hv => h.lists id v (by simpa only [Store.items, hlists] using hv),
    fun id name v hv => h.fields id name v (by simpa only [Store.fields, hobjects] using hv)⟩

theorem Store.Lawful.initial (law : Routine → Prop) (clock : Clock) : ({ clock := clock } : Store).Lawful law where
  frames f name v hv := by
    obtain ⟨n, rfl⟩ := native_of_new hv
    exact .native n
  lists id v hv := by simp [Store.items] at hv
  fields id name v hv := by simp [Store.fields] at hv

theorem Store.Lawful.define {s : Store} (h : s.Lawful law) (f : Nat) (name : String) {v : Value}
    (hv : v.Lawful law) : ({ s with frames := s.frames.define f name v } : Store).Lawful law :=
  ⟨Bindings.all_modify_put h.frames name hv f, h.lists, h.fields⟩

theorem Store.Lawful.push {s : Store} (h : s.Lawful law) {contents : Bindings Value}
    (hcontents : ∀ name v, contents.find? name = some v → v.Lawful law) :
    ({ s with frames := s.frames.push contents } : Store).Lawful law :=
  ⟨Bindings.all_push h.frames hcontents, h.lists, h.fields⟩

namespace Exec.Keeps

open Stopping

variable {α β : Type} {P : α → Prop} {Q : β → Prop} {a b : Value} {as : List Value}

theorem pure {x : α} (h : P x) : Keeps law P (Pure.pure x) := by
  refine fun s hs => ⟨fun y t hy => ?_, fun e t he => by cases he⟩
  cases hy
  exact ⟨hs, h⟩

theorem throw (e : Stop) : Keeps law P (MonadExcept.throw e : Exec α) := by
  refine fun s hs => ⟨fun y t hy => (by cases hy), fun e t he => ?_⟩
  cases he
  exact hs

theorem fault (cause : Fault.Cause) (line : Option Int) : Keeps law P (Exec.fault cause line : Exec α) := throw _

theorem bind {q : Exec α} {k : α → Exec β} (hq : Keeps law P q) (hk : ∀ x, P x → Keeps law Q (k x)) :
    Keeps law Q (q >>= k) := by
  intro s hs
  obtain ⟨hok, herror⟩ := hq s hs
  cases h : q s with
  | ok x t =>
    obtain ⟨ht, hx⟩ := hok x t h
    rw [bind_ok h]
    exact hk x hx t ht
  | error e t =>
    rw [bind_error h]
    refine ⟨fun y u hu => (by cases hu), fun e' u hu => ?_⟩
    cases hu
    exact herror e t h

theorem get {k : Store → Exec β} (hk : ∀ s : Store, s.Lawful law → Keeps law Q (k s)) :
    Keeps law Q ((MonadState.get : Exec Store) >>= k) := fun s hs => hk s hs s hs

theorem modifyGet {f : Store → α × Store} (h : ∀ s : Store, s.Lawful law → (f s).2.Lawful law ∧ P (f s).1) :
    Keeps law P (MonadStateOf.modifyGet f) := by
  refine fun s hs => ⟨fun x t hx => ?_, fun e t he => by cases he⟩
  cases hx
  exact h s hs

theorem update {f : Store → Store} (h : ∀ s : Store, s.Lawful law → (f s).Lawful law) :
    Keeps law (fun _ => True) (modify f) := modifyGet fun s hs => ⟨h s hs, trivial⟩

theorem pushFrame {contents : Bindings Value} (outer : Chain)
    (h : ∀ name v, contents.find? name = some v → v.Lawful law) :
    Keeps law (fun _ => True) (Exec.pushFrame contents outer) := modifyGet fun _ hs => ⟨hs.push h, trivial⟩

theorem defineIn (f : Nat) (name : String) (ha : a.Lawful law) : Keeps law (fun _ => True) (Exec.defineIn f name a) :=
  update fun _ hs => hs.define f name ha

theorem define (name : String) (ha : a.Lawful law) : Keeps law (fun _ => True) (Exec.define name a) :=
  get fun s _ => defineIn s.chain.frame name ha

theorem freshId : Keeps law (fun _ => True) Exec.freshId :=
  modifyGet fun _ hs => ⟨hs.congr rfl rfl rfl, trivial⟩

theorem newList (has : ∀ a ∈ as, a.Lawful law) : Keeps law (·.Lawful law) (Exec.newList as.toArray) :=
  modifyGet fun _ hs => ⟨⟨hs.frames, forall_mem_push hs.lists has, hs.fields⟩, .list _⟩

theorem value_of_acts {line : Option Int} {q : Exec Value}
    (h : Acts line line (Value.Itself (·.Lawful law)) (Value.Itself (·.Lawful law)) q q) :
    Keeps law (·.Lawful law) q := by
  intro s hs
  obtain ⟨l, c, hl, hends⟩ := h.alone hs.lists
  have hlawful : ({ s with lists := l, clock := c } : Store).Lawful law := ⟨hs.frames, hl, hs.fields⟩
  obtain ⟨a, ha, hq⟩ | ⟨e, -, hq⟩ := hends
  · rw [hq]
    refine ⟨fun b t h => ?_, fun e t h => nomatch h⟩
    cases h
    exact ⟨hlawful, ha.2⟩
  · rw [hq]
    refine ⟨fun b t h => (nomatch h), fun e t h => ?_⟩
    cases h
    exact hlawful

theorem newObject {c : Class} (hc : c.Lawful law) : Keeps law (·.Lawful law) (Exec.newObject c) :=
  modifyGet fun _ hs => ⟨⟨hs.frames, hs.lists, Bindings.all_push hs.fields .empty⟩, .object _ hc⟩

theorem setField (id : Nat) (name : String) (ha : a.Lawful law) :
    Keeps law (fun _ => True) (Exec.setField id name a) :=
  update fun _ hs => ⟨hs.frames, hs.lists, Bindings.all_modify_put hs.fields name ha id⟩

theorem print (text : String) : Keeps law (fun _ => True) (Exec.print text) := update fun _ hs => hs.congr rfl rfl rfl

theorem text (a : Value) : Keeps law (fun _ => True) (Exec.text a) := by
  refine get fun s _ => ?_
  cases a.text? s.lists with
  | some t => exact pure trivial
  | none => exact throw _

section operators

theorem unary (op : Token) (ha : a.Lawful law) : Keeps law (·.Lawful law) (a.unary op) :=
  value_of_acts (Acts.unary (Value.Lawful.lookalike law) rfl ⟨rfl, ha⟩)

theorem binary (op : Token) (ha : a.Lawful law) (hb : b.Lawful law) : Keeps law (·.Lawful law) (Value.binary op a b) :=
  value_of_acts (Acts.binary (Value.Lawful.lookalike law) rfl ⟨rfl, ha⟩ ⟨rfl, hb⟩)

theorem native (n : Native) (has : ∀ a ∈ as, a.Lawful law) (hcount : as.length = n.arity) :
    Keeps law (·.Lawful law) (n.apply as) :=
  value_of_acts (Acts.native (Value.Lawful.lookalike law) (Value.Itself.forall₂ has) n hcount)

end operators

section access

theorem read (name : Token) (hops : Option Nat) : Keeps law (·.Lawful law) (Addressing.byDistance.read name hops) := by
  cases hops with
  | some d =>
    refine get fun s hs => ?_
    unfold Frames.findAt?
    cases s.chain.out? d with
    | none => exact throw _
    | some c => exact pure (Bindings.All.getD (hs.frames c.frame) .nil name.lexeme)
  | none =>
    refine get fun s hs => ?_
    have hglobal : s.frames.find? name.lexeme globals = (s.frames.frame 0).find? name.lexeme := rfl
    rw [hglobal]
    cases hfind : (s.frames.frame 0).find? name.lexeme with
    | none => exact fault _ _
    | some a => exact pure (hs.frames _ _ a hfind)

theorem write (name : Token) (hops : Option Nat) (ha : a.Lawful law) :
    Keeps law (fun _ => True) (Addressing.byDistance.write name hops a) := by
  cases hops with
  | some d =>
    refine get fun s _ => ?_
    cases s.chain.out? d with
    | none => exact throw _
    | some c => exact defineIn _ _ ha
  | none =>
    refine get fun s _ => ?_
    cases s.frames.holder? name.lexeme globals with
    | none => exact fault _ _
    | some f => exact defineIn _ _ ha

end access

section methods

variable (hlaw : ∀ r chain, law r → law { r with closure := chain })

include hlaw

theorem bindTo {r : Routine} (hr : law r) (ha : a.Lawful law) :
    Keeps law (fun bound => law bound ∧ bound.definition = r.definition ∧ bound.isInitializer = r.isInitializer)
      (r.bindTo a) := by
  refine (pushFrame r.closure fun name v hv => ?_).bind fun chain _ => pure ⟨hlaw r chain hr, rfl, rfl⟩
  by_cases hname : name = selfName
  · rw [hname] at hv
    exact Option.some.inj hv ▸ ha
  · simp [Bindings.find?, List.lookup_cons, beq_eq_false_iff_ne.2 hname] at hv

theorem property (name : Token) (ha : a.Lawful law) : Keeps law (·.Lawful law) (Evaluator.property a name) := by
  unfold Evaluator.property
  cases ha with
  | @object id c hc =>
    refine get fun s hs => ?_
    cases hfield : (s.fields id).find? name.lexeme with
    | some v => exact pure (hs.fields _ _ v hfield)
    | none =>
      cases hmethod : c.methods.find? name.lexeme with
      | none => exact fault _ _
      | some r =>
        refine (bindTo hlaw (hc _ r hmethod).1 (.object id hc)).bind fun bound hbound => freshId.bind fun id' _ => ?_
        exact pure (.function id' hbound.1)
  | _ => exact fault _ _

end methods

end Exec.Keeps

end LoxLang
