import LoxLang.Evaluator
import LoxLang.Proofs.Nesting.Accepted
import LoxLang.Proofs.Running.Stores
import Mathlib.Data.List.Nodup

namespace LoxLang

open Coupling (getElem?_mono)

/-- Paired nodes for two runs: alike, but for special statements. -/
structure Pairing where
  pairs : List Layer → Node → Node → Prop
  special : Node → Node → Prop
  step : ∀ {Γ j j'}, pairs Γ j j' → special j j' ∨ Likened pairs Γ j j'
  statements : ∀ {j j'}, special j j' → ∃ t t', j = .stmt t ∧ j' = .stmt t'

/-- The chain of the second run has the twins of the frames on that of the first, and further frames. -/
inductive Chains (w : List Nat) : List Layer → Chain → Chain → Prop
  | root (h : w[0]? = some 0) : Chains w [] globals globals
  | shared {Γ : List Layer} {f f' : Nat} {c c' : Chain} (h : w[f]? = some f') (hc : Chains w Γ c c') :
    Chains w (.shared :: Γ) (.link f c) (.link f' c')
  | further {Γ : List Layer} {c c' : Chain} (f' : Nat) (hc : Chains w Γ c c') :
    Chains w (.further :: Γ) c (.link f' c')

namespace Chains

variable {w v : List Nat} {Γ : List Layer} {c c' : Chain}

theorem mono (h : Chains w Γ c c') (hv : w <+: v) : Chains v Γ c c' := by
  induction h with
  | root h => exact .root (getElem?_mono hv h)
  | shared h _ ih => exact .shared (getElem?_mono hv h) ih
  | further f' _ ih => exact .further f' ih

theorem out? (h : Chains w Γ c c') (d : Nat) :
    Option.Rel (fun b b' => w[b.frame]? = some b'.frame) (c.out? d) (c'.out? (past Γ d)) := by
  induction h generalizing d with
  | root h =>
    cases d with
    | zero => exact .some h
    | succ d => exact .none
  | shared h _ ih =>
    cases d with
    | zero => exact .some h
    | succ d => exact ih d
  | further f' _ ih => exact ih d

theorem frame (h : Chains w Γ c c') (hΓ : Γ.head? ≠ some .further) : w[c.frame]? = some c'.frame := by
  cases h with
  | root h => exact h
  | shared h _ => exact h
  | further => exact absurd rfl hΓ

end Chains

namespace Pairing

variable (P : Pairing)

/-- Two functions on chains of twins with paired definitions, inside further frames of the given layers. What an
initializer is about is not in a further frame. -/
structure Routines (w : List Nat) (inner : List Layer) (r r' : Routine) : Prop where
  name : r'.name = r.name
  isInitializer : r'.isInitializer = r.isInitializer
  paired : ∃ Γ, Chains w Γ r.closure r'.closure ∧
    P.pairs (inner ++ Γ) (.lambda r.definition) (.lambda r'.definition) ∧
    (r.isInitializer = true → (inner ++ Γ).head? ≠ some .further)

structure Classes (w : List Nat) (c c' : Class) : Prop where
  name : c'.name = c.name
  methods : Bindings.Rel id (fun _ => True) (P.Routines w [.shared]) c.methods c'.methods

inductive Values (w : List Nat) : Value → Value → Prop
  | nil : Values w .nil .nil
  | bool (b : Bool) : Values w (.bool b) (.bool b)
  | number (x : Float) : Values w (.number x) (.number x)
  | text (t : String) : Values w (.text t) (.text t)
  | list (id : Nat) : Values w (.list id) (.list id)
  | native (n : Native) : Values w (.native n) (.native n)
  | function (id : Nat) {r r' : Routine} (h : P.Routines w [] r r') :
    Values w (.function id r) (.function id r')
  | classDef (id : Nat) {c c' : Class} (h : P.Classes w c c') : Values w (.classDef id c) (.classDef id c')
  | object (id : Nat) {c c' : Class} (h : P.Classes w c c') : Values w (.object id c) (.object id c')

abbrev Contents (w : List Nat) : Bindings Value → Bindings Value → Prop :=
  Bindings.Rel id (fun _ => True) (P.Values w)

/-- Stores of the two runs, where `w` lists the twins of the frames of the first. -/
structure Stores (w : List Nat) (s s' : Store) : Prop where
  top : w[0]? = some 0
  size : s.frames.size = w.length
  size' : ∀ f' ∈ w, f' < s'.frames.size
  nodup : w.Nodup
  frame : ∀ f f', w[f]? = some f' → P.Contents w (s.frames.frame f) (s'.frames.frame f')
  lists : Slots (Slots (P.Values w)) s.lists s'.lists
  objects : Slots (P.Contents w) s.objects s'.objects
  fresh : s'.fresh = s.fresh
  printed : s'.printed = s.printed
  clock : s'.clock = s.clock

variable {P} {w v : List Nat}

theorem Routines.mono {inner : List Layer} {r r' : Routine} (h : P.Routines w inner r r') (hv : w <+: v) :
    P.Routines v inner r r' := by
  obtain ⟨Γ, hc, hp⟩ := h.paired
  exact ⟨h.name, h.isInitializer, Γ, hc.mono hv, hp⟩

theorem Classes.mono {c c' : Class} (h : P.Classes w c c') (hv : w <+: v) : P.Classes v c c' :=
  ⟨h.name, h.methods.mono fun _ _ hr => hr.mono hv⟩

theorem Routines.params_eq {inner : List Layer} {r r' : Routine} (h : P.Routines w inner r r') :
    r'.definition.params = r.definition.params := by
  obtain ⟨Γ, -, hp, -⟩ := h.paired
  obtain hspecial | hlikened := P.step hp
  · obtain ⟨_, _, h, -⟩ := P.statements hspecial
    cases h
  · have halike := hlikened.alike
    generalize r.definition = f at halike
    generalize r'.definition = f' at halike
    cases halike
    rfl

theorem Routines.arity_eq {inner : List Layer} {r r' : Routine} (h : P.Routines w inner r r') :
    r'.arity = r.arity := by
  rw [Routine.arity, Routine.arity, h.params_eq]

theorem Classes.initializer? {c c' : Class} (h : P.Classes w c c') :
    Option.Rel (P.Routines w [.shared]) c.initializer? c'.initializer? :=
  h.methods.find? Function.injective_id initializerName

theorem Classes.arity_eq {c c' : Class} (h : P.Classes w c c') : c'.arity = c.arity := by
  have hinit := h.initializer?
  unfold Class.arity
  generalize c.initializer? = r at hinit ⊢
  generalize c'.initializer? = r' at hinit ⊢
  cases hinit with
  | none => rfl
  | some hr => exact hr.arity_eq

namespace Values

variable {a a' b b' : Value}

theorem mono (h : P.Values w a a') (hv : w <+: v) : P.Values v a a' := by
  cases h with
  | nil => exact .nil
  | bool b => exact .bool b
  | number x => exact .number x
  | text t => exact .text t
  | list id => exact .list id
  | native n => exact .native n
  | function id h => exact .function id (h.mono hv)
  | classDef id h => exact .classDef id (h.mono hv)
  | object id h => exact .object id (h.mono hv)

theorem alike (h : P.Values w a a') : Value.Alike a a' := by
  cases h with
  | function id h => exact .function id h.name
  | classDef id h => exact .classDef id h.name
  | object id h => exact .object id h.name
  | _ => constructor

theorem lookalike (P : Pairing) (w : List Nat) : Lookalike (P.Values w) :=
  ⟨alike, .nil, .bool, .number, .text⟩

end Values

theorem Contents.mono {b b' : Bindings Value} (h : P.Contents w b b') (hv : w <+: v) : P.Contents v b b' :=
  Bindings.Rel.mono h fun _ _ ha => ha.mono hv

namespace Stores

variable {s s' : Store}

theorem fields (h : P.Stores w s s') (i : Nat) : P.Contents w (s.fields i) (s'.fields i) :=
  h.objects.getD Bindings.Rel.empty i

theorem withChain (h : P.Stores w s s') (c c' : Chain) :
    P.Stores w { s with chain := c } { s' with chain := c' } :=
  { h with }

theorem pushFrame (h : P.Stores w s s') {b b' : Bindings Value} (hb : P.Contents w b b') :
    P.Stores (w ++ [s'.frames.size]) { s with frames := s.frames.push b }
      { s' with frames := s'.frames.push b' } := by
  have hw : w <+: w ++ [s'.frames.size] := List.prefix_append _ _
  have hlast : s'.frames.size ∉ w := fun hmem => Nat.lt_irrefl _ (h.size' _ hmem)
  refine { h with
    top := getElem?_mono hw h.top
    size := by simp [h.size]
    size' := fun f' hf' => ?_
    nodup := ?_
    frame := fun f f' hf => ?_
    lists := h.lists.mono fun _ _ ha => ha.mono fun _ _ hx => hx.mono hw
    objects := h.objects.mono fun _ _ ha => Bindings.Rel.mono ha fun _ _ hx => hx.mono hw }
  · rw [Frames.size_push]
    obtain hf' | hf' := List.mem_append.1 hf'
    · exact Nat.lt_succ_of_lt (h.size' f' hf')
    · rw [List.mem_singleton.1 hf']
      exact Nat.lt_succ_self _
  · exact List.concat_eq_append ▸ List.Nodup.concat hlast h.nodup
  · rw [Frames.frame_push, Frames.frame_push, h.size]
    by_cases hlt : f < w.length
    · rw [List.getElem?_append_left hlt] at hf
      have hne : f' ≠ s'.frames.size := fun he => hlast (he ▸ List.mem_of_getElem? hf)
      rw [if_neg (Nat.ne_of_lt hlt), if_neg hne]
      exact Contents.mono (h.frame f f' hf) hw
    · obtain ⟨hle, hf'⟩ : f = w.length ∧ s'.frames.size = f' := by
        rw [List.getElem?_append_right (Nat.le_of_not_lt hlt)] at hf
        obtain ⟨hi, hf⟩ := List.getElem?_eq_some_iff.1 hf
        rw [List.length_singleton] at hi
        exact ⟨by omega, by simpa using hf⟩
      rw [if_pos hle, if_pos hf'.symm]
      exact Contents.mono hb hw

theorem pushFurther (h : P.Stores w s s') (b' : Bindings Value) :
    P.Stores w s { s' with frames := s'.frames.push b' } := by
  refine { h with
    size' := fun f' hf' => ?_
    frame := fun f f' hf => ?_ }
  · rw [Frames.size_push]
    exact Nat.lt_succ_of_lt (h.size' f' hf')
  · rw [Frames.frame_push, if_neg (Nat.ne_of_lt (h.size' f' (List.mem_of_getElem? hf)))]
    exact h.frame f f' hf

theorem define (h : P.Stores w s s') {f f' : Nat} (hf : w[f]? = some f') (name : String) {a a' : Value}
    (ha : P.Values w a a') :
    P.Stores w { s with frames := s.frames.define f name a } { s' with frames := s'.frames.define f' name a' } := by
  refine { h with
    size := by simp [h.size]
    size' := fun g' hg' => by simpa using h.size' g' hg'
    frame := fun g g' hg => ?_ }
  have hlt := (List.getElem?_eq_some_iff.1 hf).1
  have hlt' := h.size' f' (List.mem_of_getElem? hf)
  rw [Frames.frame_define, Frames.frame_define, h.size]
  by_cases hgf : g = f
  · subst hgf
    obtain rfl := Option.some.inj (hg.symm.trans hf)
    rw [if_pos ⟨rfl, hlt⟩, if_pos ⟨rfl, hlt'⟩]
    exact (h.frame g g' hf).put Function.injective_id trivial ha
  · have hgf' : g' ≠ f' := by
      rintro rfl
      exact hgf ((List.getElem?_inj (List.getElem?_eq_some_iff.1 hg).1 h.nodup).1 (hg.trans hf.symm))
    rw [if_neg fun hc => hgf hc.1, if_neg fun hc => hgf' hc.1]
    exact h.frame g g' hg

theorem newList (h : P.Stores w s s') {xs xs' : Array Value} (hxs : Slots (P.Values w) xs xs') :
    P.Stores w { s with lists := s.lists.push xs } { s' with lists := s'.lists.push xs' } :=
  { h with lists := h.lists.push hxs }

theorem newObject (h : P.Stores w s s') :
    P.Stores w { s with objects := s.objects.push ⟨[]⟩ } { s' with objects := s'.objects.push ⟨[]⟩ } :=
  { h with objects := h.objects.push Bindings.Rel.empty }

theorem setField (h : P.Stores w s s') (i : Nat) (name : String) {a a' : Value} (ha : P.Values w a a') :
    P.Stores w { s with objects := s.objects.modify i (·.put name a) }
      { s' with objects := s'.objects.modify i (·.put name a') } :=
  { h with objects := h.objects.modify (fun _ _ hb => hb.put Function.injective_id trivial ha) i }

theorem freshId (h : P.Stores w s s') :
    P.Stores w { s with fresh := s.fresh + 1 } { s' with fresh := s'.fresh + 1 } :=
  { h with fresh := congrArg (· + 1) h.fresh }

theorem print (h : P.Stores w s s') (t : String) :
    P.Stores w { s with printed := s.printed.push t } { s' with printed := s'.printed.push t } :=
  { h with printed := congrArg (·.push t) h.printed }

end Stores

theorem contents_bindAll (params : List Token) {args args' : List Value} (ha : List.Forall₂ (P.Values w) args args') :
    P.Contents w (bindAll params args) (bindAll params args') := by
  suffices hall : ∀ b b', P.Contents w b b' →
      P.Contents w ((params.zip args).foldl (fun b x => b.put x.1.lexeme x.2) b)
        ((params.zip args').foldl (fun b x => b.put x.1.lexeme x.2) b') from hall _ _ Bindings.Rel.empty
  induction params generalizing args args' with
  | nil => exact fun b b' hb => hb
  | cons p ps ih =>
    intro b b' hb
    cases ha with
    | nil => exact hb
    | cons ha has => exact ih has _ _ (hb.put Function.injective_id trivial ha)

theorem result_related {r r' : Routine} {o o' : Outcome} {s s' : Store} (hs : P.Stores w s s')
    (hr : P.Routines w [] r r') (ho : P.Values w o.value o'.value) :
    P.Values w (r.result o s) (r'.result o' s') := by
  unfold Routine.result
  rw [hr.isInitializer]
  by_cases hi : r.isInitializer = true
  · obtain ⟨Γ, hc, -, hΓ⟩ := hr.paired
    have hfind := (hs.frame _ _ (hc.frame (hΓ hi))).find? Function.injective_id selfName
    simp only [hi, if_true, id_eq] at hfind ⊢
    generalize (s.frames.frame r.closure.frame).find? selfName = x at hfind ⊢
    generalize (s'.frames.frame r'.closure.frame).find? selfName = x' at hfind ⊢
    cases hfind with
    | none => exact .nil
    | some hx => exact hx
  · simpa [hi] using ho

end Pairing

end LoxLang
