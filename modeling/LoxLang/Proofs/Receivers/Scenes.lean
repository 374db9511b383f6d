import LoxLang.Evaluator
import LoxLang.Proofs.Running.Scoped

namespace LoxLang

structure Scene where
  frames : Frames Value
  objects : Nat

def Store.scene (s : Store) : Scene := ⟨s.frames, s.objects.size⟩

def Store.self? (s : Store) : Option Value := s.frames.find? selfName s.chain

namespace Scene

variable {w v u : Scene}

def Plain (w : Scene) (f : Nat) : Prop := f < w.frames.size ∧ (w.frames.frame f).contains selfName = false

theorem Plain.find? {f : Nat} (hf : w.Plain f) : (w.frames.frame f).find? selfName = none :=
  Option.isNone_iff_eq_none.1 (by simpa [Bindings.contains] using hf.2)

def Binds (w : Scene) (f : Nat) (a : Value) : Prop := w.frames.frame f = ⟨[(selfName, a)]⟩

structure Later (w v : Scene) : Prop where
  plain : ∀ {f}, w.Plain f → v.Plain f
  binds : ∀ {f a}, w.Binds f a → v.Binds f a
  objects : w.objects ≤ v.objects

theorem Later.refl (w : Scene) : w.Later w := ⟨id, id, Nat.le_refl _⟩

theorem Later.trans (h : u.Later v) (h' : v.Later w) : u.Later w :=
  ⟨fun hf => h'.plain (h.plain hf), fun hf => h'.binds (h.binds hf), Nat.le_trans h.objects h'.objects⟩

/-- What `this` is on a chain of frames that are there, if it is anything. -/
inductive Self (w : Scene) : Chain → Option Value → Prop
  | root {f : Nat} (hf : w.Plain f) : Self w (.root f) none
  | plain {f : Nat} {outer : Chain} {a : Option Value} (hf : w.Plain f) (h : Self w outer a) : Self w (.link f outer) a
  | binds {f : Nat} {outer : Chain} {a : Option Value} {self : Value} (hf : w.Binds f self) (h : Self w outer a) :
    Self w (.link f outer) (some self)

namespace Self

variable {c : Chain} {a b : Option Value}

theorem mono (h : w.Self c a) (hv : w.Later v) : v.Self c a := by
  induction h with
  | root hf => exact .root (hv.plain hf)
  | plain hf _ ih => exact .plain (hv.plain hf) ih
  | binds hf _ ih => exact .binds (hv.binds hf) ih

theorem find? (h : w.Self c a) : w.frames.find? selfName c = a := by
  induction h with
  | root hf => exact hf.find?
  | plain hf _ ih => rw [Frames.find?, hf.find?, ih, Option.none_or]
  | binds hf _ _ =>
    rw [Frames.find?, hf]
    rfl

theorem eq (h : w.Self c a) (h' : v.Self c b) (hv : w.Later v ∨ v.Later w) : a = b := by
  obtain hv | hv := hv
  · exact (h.mono hv).find?.symm.trans h'.find?
  · exact h.find?.symm.trans (h'.mono hv).find?

end Self

/-- The frames of a chain stand for the scopes around a place, of which only those of classes declare `this`. -/
inductive Aligned (w : Scene) : List (Bindings Bool) → Chain → Option Value → Prop
  | root {f : Nat} (hf : w.Plain f) : Aligned w [] (.root f) none
  | plain {b : Bindings Bool} {l : List (Bindings Bool)} {f : Nat} {outer : Chain} {a : Option Value}
      (hb : b.contains selfName = false) (hf : w.Plain f) (h : Aligned w l outer a) :
      Aligned w (b :: l) (.link f outer) a
  | binds {l : List (Bindings Bool)} {f : Nat} {outer : Chain} {a : Option Value} {self : Value} (hf : w.Binds f self)
      (h : Aligned w l outer a) : Aligned w (⟨[(selfName, true)]⟩ :: l) (.link f outer) (some self)

namespace Aligned

variable {l : List (Bindings Bool)} {c : Chain} {a : Option Value} {d : Nat}

theorem mono (h : w.Aligned l c a) (hv : w.Later v) : v.Aligned l c a := by
  induction h with
  | root hf => exact .root (hv.plain hf)
  | plain hb hf _ ih => exact .plain hb (hv.plain hf) ih
  | binds hf _ ih => exact .binds (hv.binds hf) ih

theorem self (h : w.Aligned l c a) : w.Self c a := by
  induction h with
  | root hf => exact .root hf
  | plain _ hf _ ih => exact .plain hf ih
  | binds hf _ ih => exact .binds hf ih

theorem outward?_self (h : w.Aligned l c a) : (Scopes.outward? selfName l = none ∧ a = none) ∨
    ∃ d b self, Scopes.outward? selfName l = some d ∧ c.out? d = some b ∧ w.Binds b.frame self ∧ a = some self := by
  induction h with
  | root => exact .inl ⟨rfl, rfl⟩
  | plain hb _ _ ih =>
    simp only [Scopes.outward?, hb, Bool.false_eq_true, if_false]
    obtain ⟨hnone, ha⟩ | ⟨d, b, self, hd, hout, hbinds, ha⟩ := ih
    · exact .inl ⟨by rw [hnone]; rfl, ha⟩
    · exact .inr ⟨d + 1, b, self, by rw [hd]; rfl, hout, hbinds, ha⟩
  | binds hf => exact .inr ⟨0, _, _, rfl, rfl, hf, rfl⟩

/-- A mention of `this` leads to the nearest frame that binds it, if there is one. -/
theorem hops?_self (h : w.Aligned l c a) : (Scopes.hops? selfName l = none ∧ a = none) ∨
    ∃ d b self, Scopes.hops? selfName l = some d ∧ c.out? d = some b ∧ w.Binds b.frame self ∧ a = some self := by
  suffices heq : Scopes.hops? selfName l = Scopes.outward? selfName l by
    rw [heq]
    exact h.outward?_self
  cases h with
  | root => rfl
  | plain hb =>
    have hnone := Option.isSome_eq_false_iff.1 hb
    rw [Option.isNone_iff_eq_none] at hnone
    simp [Scopes.hops?, Scopes.outward?, hb, hnone]
  | binds => rfl

theorem hops?_plain (h : w.Aligned l c a) {name : String} (hname : name ≠ selfName)
    (hd : Scopes.hops? name l = some d) : ∃ b, c.out? d = some b ∧ w.Plain b.frame := by
  obtain ⟨b, hb, hheld⟩ := Scopes.hops?_spec hd
  clear hd
  induction h generalizing d with
  | root => cases hb
  | plain _ hf _ ih =>
    cases d with
    | zero => exact ⟨_, rfl, hf⟩
    | succ d => exact ih hb
  | binds _ _ ih =>
    cases d with
    | zero =>
      obtain rfl := Option.some.inj hb
      simp [hname] at hheld
    | succ d => exact ih hb

theorem put {Δ : Context} (h : w.Aligned Δ.seen c a) (hc : w.Plain c.frame) {name : String} (hname : name ≠ selfName)
    (complete : Bool) : w.Aligned (Δ.put name complete).seen c a := by
  obtain ⟨_ | ⟨l, ls⟩, here⟩ := Δ
  · exact h
  simp only [Context.seen, Context.put, List.map_cons] at h ⊢
  generalize l.seen = b at h ⊢
  cases h with
  | plain hb hf h => exact .plain (by simp [Bindings.contains_put, hb, Ne.symm hname]) hf h
  | binds hf h =>
    have hheld := hc.2
    rw [Chain.frame, hf] at hheld
    simp at hheld

end Aligned

end Scene

theorem Context.aligned_after {w : Scene} {Δ : Context} {c : Chain} {a : Option Value} (h : w.Aligned Δ.seen c a)
    (hc : w.Plain c.frame) {t : Stmt} (ht : ∀ name ∈ t.declares, name ≠ selfName) :
    w.Aligned (t.after Δ).seen c a := by
  unfold Stmt.after
  cases t with
  | varDecl name _ | funDecl name _ | classDecl name _ => exact h.put hc (ht _ (by simp [Stmt.declares])) true
  | _ => exact h

section known

variable (w : Scene)

/-- A function on the chain that its definition stands in. An initializer has its object in the innermost frame. -/
structure Routine.Known (r : Routine) : Prop where
  placed : ∃ Δ a, Resolved Δ (.lambda r.definition) ∧ w.Aligned Δ.seen r.closure a
  object : r.isInitializer = true → ∃ f outer a, r.closure = .link f outer ∧ w.Binds f a

/-- A method, whose object is still to come. -/
def Routine.KnownMethod (r : Routine) : Prop :=
  ∃ Δ l a, Δ.seen = ⟨[(selfName, true)]⟩ :: l ∧ Resolved Δ (.lambda r.definition) ∧ w.Aligned l r.closure a

def Class.Known (c : Class) : Prop := ∀ name r, c.methods.find? name = some r →
  r.KnownMethod w ∧ r.isInitializer = decide (name = initializerName)

inductive Value.Known : Value → Prop
  | nil : Value.Known .nil
  | bool (b : Bool) : Value.Known (.bool b)
  | number (x : Float) : Value.Known (.number x)
  | text (s : String) : Value.Known (.text s)
  | list (id : Nat) : Value.Known (.list id)
  | native (n : Native) : Value.Known (.native n)
  | function (id : Nat) {r : Routine} (hr : r.Known w) : Value.Known (.function id r)
  | classDef (id : Nat) {c : Class} (hc : c.Known w) : Value.Known (.classDef id c)
  | object {id : Nat} {c : Class} (hid : id < w.objects) (hc : c.Known w) : Value.Known (.object id c)

end known

section mono

variable {w v : Scene}

theorem Routine.Known.mono {r : Routine} (h : r.Known w) (hv : w.Later v) : r.Known v := by
  refine ⟨?_, fun hr => ?_⟩
  · obtain ⟨Δ, a, hresolved, haligned⟩ := h.placed
    exact ⟨Δ, a, hresolved, haligned.mono hv⟩
  · obtain ⟨f, outer, a, hclosure, hf⟩ := h.object hr
    exact ⟨f, outer, a, hclosure, hv.binds hf⟩

theorem Routine.KnownMethod.mono {r : Routine} (h : r.KnownMethod w) (hv : w.Later v) : r.KnownMethod v := by
  obtain ⟨Δ, l, a, hseen, hresolved, haligned⟩ := h
  exact ⟨Δ, l, a, hseen, hresolved, haligned.mono hv⟩

theorem Class.Known.mono {c : Class} (h : c.Known w) (hv : w.Later v) : c.Known v :=
  fun name r hr => ⟨(h name r hr).1.mono hv, (h name r hr).2⟩

theorem Value.Known.mono {a : Value} (h : a.Known w) (hv : w.Later v) : a.Known v := by
  cases h with
  | function id hr => exact .function id (hr.mono hv)
  | classDef id hc => exact .classDef id (hc.mono hv)
  | object hid hc => exact .object (Nat.lt_of_lt_of_le hid hv.objects) (hc.mono hv)
  | nil => exact .nil
  | bool b => exact .bool b
  | number x => exact .number x
  | text s => exact .text s
  | list id => exact .list id
  | native n => exact .native n

theorem Routine.KnownMethod.bind {r : Routine} (h : r.KnownMethod w) {f : Nat} {self : Value} (hf : w.Binds f self) :
    Routine.Known w { r with closure := .link f r.closure } ∧ w.Self (.link f r.closure) (some self) := by
  obtain ⟨Δ, l, a, hseen, hresolved, haligned⟩ := h
  have hbound : w.Aligned Δ.seen (.link f r.closure) (some self) := by
    rw [hseen]
    exact .binds hf haligned
  exact ⟨⟨⟨Δ, _, hresolved, hbound⟩, fun _ => ⟨f, _, _, rfl, hf⟩⟩, hbound.self⟩

theorem Value.Known.lookalike (w : Scene) : Lookalike (Value.Itself (·.Known w)) :=
  Value.Itself.lookalike .nil .bool .number .text

end mono

end LoxLang
