import Mathlib.Data.List.Nodup
import Mathlib.Data.Nat.Find
import LoxLang.Proofs.Addressing

namespace LoxLang

open Exec

/-- The environments made so far, the latest first, each as the chain that begins with its own frame, and
the store that they live in. A failing assignment counts as well. -/
inductive Environments : List Chain → Store → Prop
  | none (s : Store) : Environments [] { s with frames := {} }
  | outermost {es : List Chain} {s : Store} (h : Environments es s) :
    Environments (.root s.frames.size :: es) { s with frames := s.frames.push ⟨[]⟩ }
  | inside {es : List Chain} {s t : Store} {e i : Chain} (h : Environments es s) (he : e ∈ es)
    (hi : pushFrame ⟨[]⟩ e s = .ok i t) : Environments (i :: es) t
  | define {es : List Chain} {s : Store} {e : Chain} (h : Environments es s) (he : e ∈ es) (name : String)
    (v : Value) : Environments es (storeAfter (defineIn e.frame name v s))
  | assign {es : List Chain} {s : Store} {e : Chain} (h : Environments es s) (he : e ∈ es) (name : Token)
    (v : Value) : Environments es (storeAfter (assign name v e s))
  | assignAt {es : List Chain} {s : Store} {e : Chain} (h : Environments es s) (he : e ∈ es) (name : Token)
    (v : Value) (d : Nat) : Environments es (storeAfter (within e (assignAt name v d) s))

structure Placing (es : List Chain) (size : Nat) : Prop where
  frames : es.map Chain.frame = (List.range size).reverse
  outer : ∀ f o, Chain.link f o ∈ es → o ∈ es ∧ o.frame < f

namespace Placing

variable {es : List Chain} {n d : Nat} {e e' b : Chain}

theorem frame_lt (h : Placing es n) (he : e ∈ es) : e.frame < n := by
  have hframe : e.frame ∈ es.map Chain.frame := List.mem_map_of_mem he
  rw [h.frames] at hframe
  simpa using hframe

theorem cons (h : Placing es n) (hframe : e.frame = n) (houter : ∀ f o, e = .link f o → o ∈ es) :
    Placing (e :: es) (n + 1) where
  frames := by rw [List.map_cons, h.frames, hframe, List.range_succ, List.reverse_append]; rfl
  outer f o ho := by
    obtain heq | hmem := List.mem_cons.1 ho
    · have hes := houter f o heq.symm
      have hf : f = n := by rw [← hframe, ← heq]; rfl
      exact ⟨List.mem_cons_of_mem _ hes, hf ▸ h.frame_lt hes⟩
    · obtain ⟨hes, hlt⟩ := h.outer f o hmem
      exact ⟨List.mem_cons_of_mem _ hes, hlt⟩

theorem ext_frame (h : Placing es n) (he : e ∈ es) (he' : e' ∈ es) (hframe : e.frame = e'.frame) : e = e' := by
  have hnodup : (es.map Chain.frame).Nodup := by
    rw [h.frames]
    exact List.nodup_reverse.2 List.nodup_range
  exact List.inj_on_of_nodup_map hnodup he he' hframe

theorem out? (h : Placing es n) (he : e ∈ es) (hd : e.out? d = some b) : b ∈ es ∧ b.frame + d ≤ e.frame := by
  induction e generalizing d with
  | root f =>
    cases d with
    | zero =>
      obtain rfl := Option.some.inj hd
      exact ⟨he, Nat.le_refl _⟩
    | succ d => simp [Chain.out?] at hd
  | link f o ih =>
    cases d with
    | zero =>
      obtain rfl := Option.some.inj hd
      exact ⟨he, Nat.le_refl _⟩
    | succ d =>
      obtain ⟨ho, hlt⟩ := h.outer f o he
      obtain ⟨hb, hle⟩ := ih ho hd
      exact ⟨hb, show b.frame + (d + 1) ≤ f by omega⟩

end Placing

namespace Environments

variable {es : List Chain} {s : Store} {e b : Chain}

theorem placing (h : Environments es s) : Placing es s.frames.size := by
  induction h with
  | none s => exact ⟨rfl, fun f o ho => absurd ho List.not_mem_nil⟩
  | @outermost es s h ih =>
    rw [Frames.size_push]
    exact ih.cons rfl fun f o ho => nomatch ho
  | @inside es s t e i h he hi ih =>
    cases hi
    rw [Frames.size_push]
    refine ih.cons rfl fun f o ho => ?_
    obtain ⟨-, rfl⟩ := Chain.link.inj ho
    exact he
  | define h he name v ih =>
    simpa [storeAfter, defineIn, Stopping.modify_apply] using ih
  | @assign es s e h he name v ih =>
    rw [assign_apply]
    cases s.frames.holder? name.lexeme e with
    | none => exact ih
    | some f => simpa [storeAfter] using ih
  | @assignAt es s e h he name v d ih =>
    rw [assignAt_apply]
    cases e.out? d with
    | none => exact ih
    | some b => simpa [storeAfter] using ih

theorem defineAll (h : Environments es s) (he : e ∈ es) (entries : List (String × Value)) :
    Environments es (entries.foldl (fun t entry => storeAfter (defineIn e.frame entry.1 entry.2 t)) s) := by
  induction entries generalizing s with
  | nil => exact h
  | cons entry rest ih => exact ih (h.define he entry.1 entry.2)

theorem new (clock : Clock) : Environments [globals] { clock := clock } :=
  (none { clock := clock }).outermost.defineAll (List.mem_singleton.2 rfl) nativeBindings.entries

theorem find?_define (h : Environments es s) (hb : b ∈ es) {c : Chain} (hc : c ∈ es) (name m : String)
    (v : Value) : ((s.frames.define b.frame name v).frame c.frame).find? m =
      if c = b ∧ m = name then some v else (s.frames.frame c.frame).find? m := by
  rw [Frames.frame_define]
  by_cases hframe : c.frame = b.frame
  · obtain rfl := h.placing.ext_frame hc hb hframe
    rw [if_pos ⟨rfl, h.placing.frame_lt hc⟩, Bindings.find?_put]
    simp
  · have hne : c ≠ b := fun heq => hframe (heq ▸ rfl)
    simp [hframe, hne]

end Environments

namespace Store

def Unbound (s : Store) (name : String) (e : Chain) : Prop :=
  ∀ d b, e.out? d = some b → (s.frames.frame b.frame).contains name = false

/-- The environment on a chain that holds a name at the least distance. -/
structure Nearest (s : Store) (name : String) (e : Chain) (d : Nat) (b : Chain) : Prop where
  out : e.out? d = some b
  holds : (s.frames.frame b.frame).contains name = true
  least : ∀ k < d, ∀ c, e.out? k = some c → (s.frames.frame c.frame).contains name = false

variable {s : Store} {name : String} {e b : Chain} {d : Nat}

theorem exists_nearest (h : ¬ s.Unbound name e) : ∃ d b, s.Nearest name e d b := by
  have hsome : ∃ d b, e.out? d = some b ∧ (s.frames.frame b.frame).contains name = true := by
    simpa [Unbound] using h
  classical
  obtain ⟨b, hout, hholds⟩ := Nat.find_spec hsome
  refine ⟨Nat.find hsome, b, hout, hholds, fun k hk c hc => ?_⟩
  have hnot := Nat.find_min hsome hk
  cases hcontains : (s.frames.frame c.frame).contains name with
  | false => rfl
  | true => exact absurd ⟨c, hc, hcontains⟩ hnot

namespace Nearest

theorem bound (h : s.Nearest name e d b) : ¬ s.Unbound name e := by
  intro hunbound
  have hholds := h.holds
  rw [hunbound d b h.out] at hholds
  exact Bool.false_ne_true hholds

theorem unique {d' : Nat} {b' : Chain} (h : s.Nearest name e d b) (h' : s.Nearest name e d' b') : d = d' := by
  obtain hlt | heq | hlt := Nat.lt_trichotomy d d'
  · exact absurd (h.holds.symm.trans (h'.least d hlt b h.out)) (by simp)
  · exact heq
  · exact absurd (h'.holds.symm.trans (h.least d' hlt b' h'.out)) (by simp)

theorem holder (h : s.Nearest name e d b) : s.frames.holder? name e = some b.frame :=
  (Frames.find?_passed h.out h.least).2.trans (Frames.holder?_here h.holds)

theorem value (h : s.Nearest name e d b) :
    ∃ v, (s.frames.frame b.frame).find? name = some v ∧ s.frames.find? name e = some v := by
  obtain ⟨v, hv⟩ := Option.isSome_iff_exists.1 h.holds
  exact ⟨v, hv, (Frames.find?_passed h.out h.least).1.trans (Frames.find?_here hv)⟩

end Nearest

end Store

/-- An action stops exactly under a condition, always in the same way, and then leaves the store that it met. -/
structure Exec.StopsIff {α : Type} (p : Exec α) (s : Store) (stop : Stop) (condition : Prop) : Prop where
  stopped : condition → p s = .error stop s
  ended : ¬ condition → ∃ a t, p s = .ok a t

namespace Exec

variable {α β : Type}

theorem StopsIff.of_option {p : Exec α} {s : Store} {stop : Stop} {condition : Prop} {o : Option β}
    (ho : o = none ↔ condition) (hnone : o = none → p s = .error stop s)
    (hsome : ∀ b, o = some b → ∃ a t, p s = .ok a t) : p.StopsIff s stop condition where
  stopped hc := hnone (ho.2 hc)
  ended hc := by
    obtain ⟨b, hb⟩ := Option.ne_none_iff_exists'.1 (mt ho.1 hc)
    exact hsome b hb

variable (name : Token) (v : Value) (e : Chain) (d : Nat) (s : Store)

theorem find_stopsIff : (find name e).StopsIff s
    (.fault ⟨.undefinedVariable name.lexeme, some name.line⟩) (s.Unbound name.lexeme e) :=
  .of_option Frames.find?_eq_none_iff (fun h => by rw [find_apply, h]) fun w h => ⟨w, s, by rw [find_apply, h]⟩

theorem assign_stopsIff : (assign name v e).StopsIff s
    (.fault ⟨.undefinedVariable name.lexeme, some name.line⟩) (s.Unbound name.lexeme e) :=
  .of_option Frames.holder?_eq_none_iff (fun h => by rw [assign_apply, h]) fun f h =>
    ⟨(), _, by rw [assign_apply, h]⟩

theorem findAt_stopsIff : (within e (findAt name d)).StopsIff s (.defect .invalidDistance) (e.links < d) :=
  .of_option (Chain.out?_eq_none_iff e d) (fun h => by rw [findAt_apply, h]) fun b h =>
    ⟨_, s, by rw [findAt_apply, h]⟩

theorem assignAt_stopsIff : (within e (assignAt name v d)).StopsIff s (.defect .invalidDistance) (e.links < d) :=
  .of_option (Chain.out?_eq_none_iff e d) (fun h => by rw [assignAt_apply, h]) fun b h =>
    ⟨(), _, by rw [assignAt_apply, h]⟩

end Exec

section agreement

variable {s : Store} {e b : Chain} {d : Nat}

theorem Store.Nearest.find {name : Token} (h : s.Nearest name.lexeme e d b) :
    ∃ w, (s.frames.frame b.frame).find? name.lexeme = some w ∧ Exec.find name e s = .ok w s ∧
      within e (findAt name d) s = .ok w s := by
  obtain ⟨w, hheld, hfound⟩ := h.value
  refine ⟨w, hheld, by rw [find_apply, hfound], ?_⟩
  rw [findAt_apply, h.out]
  simp only [hheld, Option.getD_some]

theorem Store.Nearest.assign {name : Token} (h : s.Nearest name.lexeme e d b) (v : Value) :
    Exec.assign name v e s = .ok () { s with frames := s.frames.define b.frame name.lexeme v } ∧
      within e (assignAt name v d) s = .ok () { s with frames := s.frames.define b.frame name.lexeme v } := by
  refine ⟨by rw [assign_apply, h.holder], ?_⟩
  rw [assignAt_apply, h.out]

/-- Walking outward by name and counting the links to the nearest environment with the name are the same
reading and the same writing, of one slot. Either fails only where it must, and changes nothing then. -/
theorem addressings_agree {es : List Chain} (h : Environments es s) (he : e ∈ es) (name : Token) (v : Value) :
    ((Exec.find name e).StopsIff s (.fault ⟨.undefinedVariable name.lexeme, some name.line⟩)
        (s.Unbound name.lexeme e) ∧
      (Exec.assign name v e).StopsIff s (.fault ⟨.undefinedVariable name.lexeme, some name.line⟩)
        (s.Unbound name.lexeme e)) ∧
    (¬ s.Unbound name.lexeme e → ∃ d b, b ∈ es ∧ s.Nearest name.lexeme e d b ∧
      (∃ w, (s.frames.frame b.frame).find? name.lexeme = some w ∧ Exec.find name e s = .ok w s ∧
        within e (findAt name d) s = .ok w s) ∧
      ∃ t, Exec.assign name v e s = .ok () t ∧ within e (assignAt name v d) s = .ok () t ∧
        t = { s with frames := t.frames } ∧ t.frames.size = s.frames.size ∧
        ∀ c ∈ es, ∀ m, (t.frames.frame c.frame).find? m =
          if c = b ∧ m = name.lexeme then some v else (s.frames.frame c.frame).find? m) ∧
    ∀ d, (e.out? d = none ↔ e.links < d) ∧
      (within e (findAt name d)).StopsIff s (.defect .invalidDistance) (e.links < d) ∧
      (within e (assignAt name v d)).StopsIff s (.defect .invalidDistance) (e.links < d) := by
  refine ⟨⟨find_stopsIff name e s, assign_stopsIff name v e s⟩, fun hbound => ?_, fun d =>
    ⟨Chain.out?_eq_none_iff e d, findAt_stopsIff name e d s, assignAt_stopsIff name v e d s⟩⟩
  obtain ⟨d, b, hnearest⟩ := Store.exists_nearest hbound
  have hb : b ∈ es := (h.placing.out? he hnearest.out).1
  obtain ⟨hassign, hassignAt⟩ := hnearest.assign v
  exact ⟨d, b, hb, hnearest, hnearest.find, _, hassign, hassignAt, rfl, Frames.size_define _ _ _ _,
    fun c hc m => h.find?_define hb hc name.lexeme m v⟩

end agreement

def insideGlobals : Store := { frames := ({} : Store).frames.push ⟨[]⟩ }

def clockToken : Token := ⟨.identifier, "clock", 1, none⟩

/-- The clock is one link out, by name or by number, and nothing is two links out. -/
theorem insideGlobals_agree : Environments [.link 1 globals, globals] insideGlobals ∧
    (∃ w, Exec.find clockToken (.link 1 globals) insideGlobals = .ok w insideGlobals ∧
      within (.link 1 globals) (findAt clockToken 1) insideGlobals = .ok w insideGlobals) ∧
    within (.link 1 globals) (findAt clockToken 2) insideGlobals =
      .error (.defect .invalidDistance) insideGlobals := by
  have hmade : Environments [.link 1 globals, globals] insideGlobals :=
    (Environments.new 0).inside (List.mem_singleton.2 rfl) rfl
  have hclock : insideGlobals.Nearest "clock" (.link 1 globals) 1 globals := by
    refine ⟨rfl, by decide, fun k hk c hc => ?_⟩
    obtain rfl : k = 0 := by omega
    obtain rfl := Option.some.inj hc
    decide
  obtain ⟨-, hagree, hdistance⟩ := addressings_agree hmade List.mem_cons_self clockToken .nil
  obtain ⟨d, b, -, hnearest, ⟨w, -, hfind, hfindAt⟩, -⟩ := hagree hclock.bound
  obtain rfl : d = 1 := hnearest.unique hclock
  exact ⟨hmade, ⟨w, hfind, hfindAt⟩, (hdistance 2).2.1.stopped (by decide)⟩

end LoxLang
