import LoxLang.Proofs.Running.Coupling
import LoxLang.Proofs.Running.Operators

namespace LoxLang

theorem Frames.eq_of_frame {α : Type} {fs fs' : Frames α} (hsize : fs'.size = fs.size)
    (hframe : ∀ f < fs.size, fs'.frame f = fs.frame f) : fs' = fs := by
  obtain ⟨slots⟩ := fs
  obtain ⟨slots'⟩ := fs'
  simp only [Frames.size, Frames.frame, Frames.mk.injEq] at *
  apply Array.ext hsize
  intro f hf' hf
  simpa [hf, hf'] using hframe f hf

namespace Coupling

variable {C : Coupling} {w v : List C.Label}

theorem getElem?_mono {α : Type} {as bs : List α} (h : as <+: bs) {i : Nat} {a : α}
    (hi : as[i]? = some a) : bs[i]? = some a := by
  obtain ⟨more, rfl⟩ := h
  rw [List.getElem?_append_left (List.getElem?_eq_some_iff.1 hi).1]
  exact hi

namespace Chains

variable {c b : Chain} {Γ : List C.Label}

theorem mono (h : C.Chains w c Γ) (hv : w <+: v) : C.Chains v c Γ := by
  induction h with
  | root h => exact .root (getElem?_mono hv h)
  | link h _ ih => exact .link (getElem?_mono hv h) ih

theorem links_eq (h : C.Chains w c Γ) : c.links = Γ.length := by
  induction h with
  | root => rfl
  | link _ _ ih => simp [Chain.links, ih]

theorem out? (h : C.Chains w c Γ) {d : Nat} (hd : c.out? d = some b) : C.Chains w b (Γ.drop d) := by
  induction h generalizing d with
  | root h =>
    cases d with
    | zero => exact Option.some.inj hd ▸ .root h
    | succ d => simp [Chain.out?] at hd
  | link h hΓ ih =>
    cases d with
    | zero => exact Option.some.inj hd ▸ .link h hΓ
    | succ d => exact ih hd

theorem out?_length (h : C.Chains w c Γ) : c.out? Γ.length = some globals := by
  induction h with
  | root => rfl
  | link _ _ ih => exact ih

theorem frame (h : C.Chains w c Γ) : w[c.frame]? = some (C.head Γ) := by
  cases h with
  | root h => exact h
  | link h _ => exact h

end Chains

theorem Routines.mono {inner : List C.Label} {r r' : Routine} (h : C.Routines w inner r r')
    (hv : w <+: v) : C.Routines v inner r r' := by
  obtain ⟨Γ, hΓ, hp⟩ := h.paired
  exact ⟨h.name, h.closure, h.isInitializer, Γ, hΓ.mono hv, hp⟩

theorem Classes.mono {c c' : Class} (h : C.Classes w c c') (hv : w <+: v) : C.Classes v c c' := by
  refine ⟨h.name, h.methods.mono ?_⟩
  rintro r r' ⟨ℓ, hℓ, hr⟩
  exact ⟨ℓ, hℓ, hr.mono hv⟩

namespace Values

variable {a a' b b' : Value}

theorem mono (h : C.Values w a a') (hv : w <+: v) : C.Values v a a' := by
  cases h with
  | nil => exact .nil
  | bool b => exact .bool b
  | number x => exact .number x
  | text t => exact .text t
  | list id => exact .list id
  | native n => exact .native n
  | function id h => exact .function id (h.mono hv)
  | classDef id h => exact .classDef id (h.mono hv)
  | object id h => exact .object id (h.mono hv)

theorem alike (h : C.Values w a a') : Value.Alike a a' := by
  cases h with
  | function id h => exact .function id h.name
  | classDef id h => exact .classDef id h.name
  | object id h => exact .object id h.name
  | _ => constructor

theorem lookalike (C : Coupling) (w : List C.Label) : Lookalike (C.Values w) :=
  ⟨alike, .nil, .bool, .number, .text⟩

theorem truthy_eq (h : C.Values w a a') : a'.truthy = a.truthy := h.alike.truthy_eq

end Values

theorem Contents.mono {ℓ : C.Label} {b b' : Bindings Value} (h : C.Contents w ℓ b b') (hv : w <+: v) :
    C.Contents v ℓ b b' := Bindings.Rel.mono h fun _ _ ha => ha.mono hv

namespace Stores

variable {s s' : Store}

theorem fields (h : C.Stores w s s') (i : Nat) :
    Bindings.Rel id (fun _ => True) (C.Values w) (s.fields i) (s'.fields i) :=
  h.objects.getD Bindings.Rel.empty i

theorem withChain (h : C.Stores w s s') (c : Chain) :
    C.Stores w { s with chain := c } { s' with chain := c } :=
  { h with chain := rfl }

theorem pushFrame (h : C.Stores w s s') {ℓ : C.Label} {b b' : Bindings Value} (hb : C.Contents w ℓ b b') :
    C.Stores (w ++ [ℓ]) { s with frames := s.frames.push b } { s' with frames := s'.frames.push b' } := by
  have hw : w <+: w ++ [ℓ] := List.prefix_append _ _
  refine { h with
    top := getElem?_mono hw h.top
    size := by simp [h.size]
    size' := by simp [h.size']
    frame := fun f m hf => ?_
    lists := h.lists.mono fun _ _ ha => ha.mono fun _ _ hx => hx.mono hw
    objects := h.objects.mono fun _ _ ha => Bindings.Rel.mono ha fun _ _ hx => hx.mono hw }
  rw [Frames.frame_push, Frames.frame_push, h.size, h.size']
  by_cases hlast : f = w.length
  · obtain rfl : ℓ = m := by simpa [hlast] using hf
    simpa [hlast] using Contents.mono hb hw
  · have hlt : f < w.length := by
      have := (List.getElem?_eq_some_iff.1 hf).1
      simp only [List.length_append, List.length_singleton] at this
      omega
    rw [List.getElem?_append_left hlt] at hf
    simpa [hlast] using Contents.mono (h.frame f m hf) hw

theorem define (h : C.Stores w s s') {f : Nat} {ℓ : C.Label} (hf : w[f]? = some ℓ) {name : String}
    {a a' : Value} (hname : C.holds ℓ name) (ha : C.Values w a a') :
    C.Stores w { s with frames := s.frames.define f name a }
      { s' with frames := s'.frames.define f (C.rename ℓ name) a' } := by
  refine { h with
    size := by simp [h.size]
    size' := by simp [h.size']
    frame := fun g m hg => ?_ }
  rw [Frames.frame_define, Frames.frame_define, h.size, h.size']
  by_cases hgf : g = f ∧ f < w.length
  · obtain ⟨rfl, -⟩ := hgf
    obtain rfl : ℓ = m := Option.some.inj (hf.symm.trans hg)
    simpa [(List.getElem?_eq_some_iff.1 hf).1] using
      (h.frame g ℓ hf).put (C.rename_injective ℓ) hname ha
  · simpa [hgf] using h.frame g m hg

theorem newList (h : C.Stores w s s') {xs xs' : Array Value} (hxs : Slots (C.Values w) xs xs') :
    C.Stores w { s with lists := s.lists.push xs } { s' with lists := s'.lists.push xs' } :=
  { h with lists := h.lists.push hxs }

theorem newObject (h : C.Stores w s s') :
    C.Stores w { s with objects := s.objects.push ⟨[]⟩ } { s' with objects := s'.objects.push ⟨[]⟩ } :=
  { h with objects := h.objects.push Bindings.Rel.empty }

theorem setField (h : C.Stores w s s') (i : Nat) (name : String) {a a' : Value} (ha : C.Values w a a') :
    C.Stores w { s with objects := s.objects.modify i (·.put name a) }
      { s' with objects := s'.objects.modify i (·.put name a') } :=
  { h with objects := h.objects.modify (fun _ _ hb => hb.put Function.injective_id trivial ha) i }

theorem freshId (h : C.Stores w s s') :
    C.Stores w { s with fresh := s.fresh + 1 } { s' with fresh := s'.fresh + 1 } :=
  { h with fresh := congrArg (· + 1) h.fresh }

theorem print (h : C.Stores w s s') (t : String) :
    C.Stores w { s with printed := s.printed.push t } { s' with printed := s'.printed.push t } :=
  { h with printed := congrArg (·.push t) h.printed }

theorem initial (clock : Clock) : C.Stores [C.top] { clock := clock } { clock := clock } := by
  refine ⟨rfl, rfl, rfl, fun f ℓ hf => ?_, rfl, Slots.empty, Slots.empty, rfl, rfl, rfl⟩
  obtain ⟨hlt, hℓ⟩ := List.getElem?_eq_some_iff.1 hf
  obtain rfl : f = 0 := by simpa using hlt
  obtain rfl : C.top = ℓ := hℓ
  have hentry : ∀ n : Native, n.name = C.rename C.top n.name ∧ C.holds C.top n.name ∧
      C.Values [C.top] (.native n) (.native n) :=
    fun n => ⟨(C.rename_top _).symm, C.holds_native n, .native n⟩
  exact .cons (hentry .clock) (.cons (hentry .get) (.cons (hentry .set) (.cons (hentry .add)
    (.cons (hentry .size) .nil))))

end Stores

theorem contents_bindAll {ℓ : C.Label} {params params' : List Token} {args args' : List Value}
    (hp : List.Forall₂ (C.Declared ℓ) params params') (ha : List.Forall₂ (C.Values w) args args') :
    C.Contents w ℓ (bindAll params args) (bindAll params' args') := by
  have hall : ∀ b b', C.Contents w ℓ b b' →
      C.Contents w ℓ ((params.zip args).foldl (fun b x => b.put x.1.lexeme x.2) b)
        ((params'.zip args').foldl (fun b x => b.put x.1.lexeme x.2) b') := by
    induction hp generalizing args args' with
    | nil => exact fun b b' hb => hb
    | @cons p p' ps ps' hp _ ih =>
      intro b b' hb
      cases ha with
      | nil => exact hb
      | @cons a a' as as' ha has =>
        simp only [List.zip_cons_cons, List.foldl_cons]
        apply ih has
        rw [hp.1]
        exact hb.put (C.rename_injective ℓ) hp.2 ha
  exact hall _ _ Bindings.Rel.empty

theorem result_related {inner : List C.Label} {r r' : Routine} {o o' : Outcome} {s s' : Store}
    (hs : C.Stores w s s') (hr : C.Routines w inner r r') (ho : C.Values w o.value o'.value) :
    C.Values w (r.result o s) (r'.result o' s') := by
  unfold Routine.result
  rw [hr.isInitializer, hr.closure]
  by_cases hi : r.isInitializer = true
  · obtain ⟨Γ, hΓ, -⟩ := hr.paired
    have hfind := (hs.frame _ _ hΓ.frame).find? (C.rename_injective _) selfName
    rw [C.rename_self] at hfind
    simp only [hi, if_true]
    generalize (s.frames.frame r.closure.frame).find? selfName = x at hfind ⊢
    generalize (s'.frames.frame r.closure.frame).find? selfName = x' at hfind ⊢
    cases hfind with
    | none => exact .nil
    | some hx => exact hx
  · simpa [hi] using ho

/-- A run beside itself: names stay, and each node is paired with itself only. -/
structure Identical (C : Coupling) : Prop where
  rename : ∀ ℓ name, C.rename ℓ name = name
  pairs : ∀ {Γ j j'}, C.pairs Γ j j' → j' = j

section identical

variable (hC : C.Identical)

include hC

theorem Routines.eq {inner : List C.Label} {r r' : Routine} (h : C.Routines w inner r r') : r' = r := by
  obtain ⟨name, definition, closure, isInitializer⟩ := r
  obtain ⟨name', definition', closure', isInitializer'⟩ := r'
  obtain ⟨rfl, rfl, rfl, Γ, -, hp⟩ := h
  obtain rfl := Node.lambda.inj (hC.pairs hp)
  rfl

theorem Classes.eq {c c' : Class} (h : C.Classes w c c') : c' = c := by
  obtain ⟨name, methods⟩ := c
  obtain ⟨name', methods'⟩ := c'
  obtain ⟨rfl, hms⟩ := h
  obtain rfl := hms.eq (fun _ => rfl) fun r r' ⟨_, _, hr⟩ => hr.eq hC
  rfl

theorem Values.eq {a a' : Value} (h : C.Values w a a') : a' = a := by
  cases h with
  | function id h => rw [h.eq hC]
  | classDef id h => rw [h.eq hC]
  | object id h => rw [h.eq hC]
  | _ => rfl

theorem Stores.eq {s s' : Store} (h : C.Stores w s s') : s' = s := by
  have hlists := h.lists.eq fun _ _ hxs => hxs.eq fun _ _ hx => hx.eq hC
  have hobjects := h.objects.eq fun _ _ hb => hb.eq (fun _ => rfl) fun _ _ hx => hx.eq hC
  have hframes : s'.frames = s.frames := by
    apply Frames.eq_of_frame (h.size'.trans h.size.symm)
    intro f hf
    have hfw : f < w.length := h.size ▸ hf
    exact (h.frame f _ (List.getElem?_eq_getElem hfw)).eq (hC.rename _) fun _ _ hx => hx.eq hC
  have hchain := h.chain
  have hfresh := h.fresh
  have hprinted := h.printed
  have hclock := h.clock
  cases s
  cases s'
  simp_all

end identical

end Coupling

end LoxLang
