import LoxLang.Proofs.Receivers.Sites
import LoxLang.Proofs.Running.Operators

namespace LoxLang

open Traced (act)
open LoxLang.Stopping

section safe

variable {x y z : Store × List Moment}

theorem Onward.refl (h : Safe x) : Onward x x := ⟨h, .refl _, rfl, rfl⟩

theorem Onward.trans (h : Onward x y) (h' : Onward y z) : Onward x z :=
  ⟨h'.safe, h.later.trans h'.later, h'.chain.trans h.chain, h'.depth.trans h.depth⟩

theorem Safe.congr {s : Store} (h : Safe x) (hframes : s.frames = x.1.frames) (hlists : s.lists = x.1.lists)
    (hobjects : s.objects = x.1.objects) : Safe (s, x.2) := by
  have hscene : s.scene = x.1.scene := by rw [Store.scene, hframes, hobjects, Store.scene]
  refine ⟨hscene ▸ h.top, fun f name v hv => ?_, fun id v hv => ?_, fun id name v hv => ?_, fun f hf => ?_,
    fun m hm => ?_, h.told⟩
  · exact hscene ▸ h.frames f name v (hframes ▸ hv)
  · exact hscene ▸ h.lists id v (by simpa only [Store.items, hlists] using hv)
  · exact hscene ▸ h.fields id name v (by simpa only [Store.fields, hobjects] using hv)
  · exact hscene ▸ h.selves f (hframes ▸ hf)
  · exact hscene ▸ h.past m hm

theorem Safe.onward {s : Store} (h : Safe x) (hframes : s.frames = x.1.frames) (hlists : s.lists = x.1.lists)
    (hobjects : s.objects = x.1.objects) (hchain : s.chain = x.1.chain) : Onward x (s, x.2) := by
  refine ⟨h.congr hframes hlists hobjects, ?_, hchain, rfl⟩
  rw [Store.scene, Store.scene, hframes, hobjects]
  exact .refl _

theorem Safe.withFrames {frames : Frames Value} (h : Safe x) (hlater : x.1.scene.Later ⟨frames, x.1.objects.size⟩)
    (hframes : ∀ f name v, (frames.frame f).find? name = some v → v.Known ⟨frames, x.1.objects.size⟩)
    (hselves : ∀ f, (frames.frame f).contains selfName = true → ∃ id c, frames.frame f = ⟨[(selfName, .object id c)]⟩) :
    Onward x ({ x.1 with frames }, x.2) where
  safe := {
    top := hlater.plain h.top
    frames := hframes
    lists := fun id v hv => (h.lists id v hv).mono hlater
    fields := fun id name v hv => (h.fields id name v hv).mono hlater
    selves := hselves
    past := fun m hm => (h.past m hm).trans hlater
    told := h.told }
  later := hlater
  chain := rfl
  depth := rfl

theorem Scene.later_push (w : Scene) (contents : Bindings Value) : w.Later ⟨w.frames.push contents, w.objects⟩ := by
  have hold : ∀ f, f ≠ w.frames.size → (w.frames.push contents).frame f = w.frames.frame f :=
    fun f hf => (Frames.frame_push _ _ _).trans (if_neg hf)
  refine ⟨fun {f} hf => ⟨?_, ?_⟩, fun {f a} hf => ?_, Nat.le_refl _⟩
  · rw [Frames.size_push]
    exact Nat.lt_succ_of_lt hf.1
  · rw [hold f (Nat.ne_of_lt hf.1)]
    exact hf.2
  · have hne : f ≠ w.frames.size := by
      rintro rfl
      simp [Binds, Frames.frame, Frames.size] at hf
    exact (hold f hne).trans hf

theorem Safe.pushFrame {contents : Bindings Value} (h : Safe x)
    (hcontents : ∀ name v, contents.find? name = some v → v.Known x.1.scene)
    (hself : contents.contains selfName = true → ∃ id c, contents = ⟨[(selfName, .object id c)]⟩) :
    Onward x ({ x.1 with frames := x.1.frames.push contents }, x.2) := by
  have hlater := Scene.later_push x.1.scene contents
  have hknown := Bindings.all_push (fun f name v hv => (h.frames f name v hv).mono hlater)
    fun name v hv => (hcontents name v hv).mono hlater
  refine h.withFrames hlater hknown fun f hf => ?_
  rw [Frames.frame_push] at hf ⊢
  split at hf
  · rename_i heq
    rw [if_pos heq]
    exact hself hf
  · rename_i hne
    rw [if_neg hne]
    exact h.selves f hf

theorem Scene.later_define (w : Scene) {f : Nat} (hf : w.Plain f) {name : String} (hname : name ≠ selfName) (v : Value) :
    w.Later ⟨w.frames.define f name v, w.objects⟩ := by
  refine ⟨fun {g} hg => ⟨?_, ?_⟩, fun {g a} hg => ?_, Nat.le_refl _⟩
  · rw [Frames.size_define]
    exact hg.1
  · rw [Frames.frame_define]
    split
    · rw [Bindings.contains_put, hf.2]
      simp [Ne.symm hname]
    · exact hg.2
  · unfold Binds at hg ⊢
    have hne : g ≠ f := by
      rintro rfl
      have hheld := hf.2
      rw [hg] at hheld
      simp at hheld
    rw [Frames.frame_define, if_neg fun h => hne h.1]
    exact hg

theorem Safe.define {f : Nat} {name : String} {v : Value} (h : Safe x) (hf : x.1.scene.Plain f) (hname : name ≠ selfName)
    (hv : v.Known x.1.scene) : Onward x ({ x.1 with frames := x.1.frames.define f name v }, x.2) := by
  have hlater := Scene.later_define x.1.scene hf hname v
  have hknown := Bindings.all_modify_put (fun g other u hu => (h.frames g other u hu).mono hlater) name (hv.mono hlater) f
  refine h.withFrames hlater hknown fun g hg => ?_
  rw [Frames.frame_define] at hg ⊢
  split at hg
  · rw [Bindings.contains_put, show (x.1.frames.frame f).contains selfName = false from hf.2] at hg
    simp [Ne.symm hname] at hg
  · rename_i hne
    rw [if_neg hne]
    exact h.selves g hg

theorem Safe.withLists {lists : Array (Array Value)} {clock : Clock} (h : Safe x)
    (hlists : ∀ id : Nat, ∀ v ∈ lists[id]?.getD #[], v.Known x.1.scene) :
    Onward x ({ x.1 with lists, clock }, x.2) where
  safe := { h with lists := hlists }
  later := .refl _
  chain := rfl
  depth := rfl

theorem Safe.withObjects {objects : Array (Bindings Value)} (h : Safe x) (hsize : x.1.objects.size ≤ objects.size)
    (hobjects : ∀ (id : Nat) name v, (objects[id]?.getD ⟨[]⟩).find? name = some v → v.Known x.1.scene) :
    Onward x ({ x.1 with objects }, x.2) := by
  have hlater : x.1.scene.Later ⟨x.1.frames, objects.size⟩ := ⟨id, id, hsize⟩
  exact ⟨⟨h.top, fun f name v hv => (h.frames f name v hv).mono hlater, fun id v hv => (h.lists id v hv).mono hlater,
    fun id name v hv => (hobjects id name v hv).mono hlater, h.selves, fun m hm => (h.past m hm).trans hlater, h.told⟩,
    hlater, rfl, rfl⟩

theorem Safe.present (h : Safe x) {id : Nat} (hid : x.1.Present id) : id < x.1.objects.size := by
  have hknown : ∀ {c}, (Value.object id c).Known x.1.scene → id < x.1.objects.size := by
    intro c hc
    cases hc with
    | object hid => exact hid
  cases hid with
  | named hv => exact hknown (h.frames _ _ _ hv)
  | item hv => exact hknown (h.lists _ _ hv)
  | field hv => exact hknown (h.fields _ _ _ hv)

theorem Safe.record {m : Moment} (h : Safe x) (hm : m.store = x.1) (hapt : m.Apt x.2) : Safe (x.1, x.2 ++ [m]) := by
  have hreceived : Received x.2 m :=
    ⟨fun m' hm' => hm ▸ h.past m' hm', hm ▸ h.selves, fun id hid => hm ▸ h.present (hm ▸ hid), hapt⟩
  refine { h with past := fun m' hm' => ?_, told := fun earlier m' later heq => ?_ }
  · obtain hm' | hm' := List.mem_append.1 hm'
    · exact h.past m' hm'
    · rw [List.mem_singleton.1 hm', hm]
      exact .refl _
  · obtain rfl | ⟨more, last, rfl⟩ := later.eq_nil_or_concat'
    · obtain ⟨rfl, hsame⟩ := List.append_inj' heq rfl
      exact (List.cons.inj hsame).1 ▸ hreceived
    · rw [← List.cons_append, ← List.append_assoc] at heq
      exact h.told earlier m' more (List.append_inj_left' heq rfl)

end safe

variable {α β : Type}

/-- From a safe state an action comes to safe ones, and if it ends by itself to one where the postcondition holds. -/
def Loyal (x : Store × List Moment) (P : Store × List Moment → α → Prop) (p : Traced α) : Prop :=
  (∀ a y, p x = .ok a y → Onward x y ∧ P y a) ∧ ∀ e y, p x = .error e y → Onward x y

/-- What is true of a value where the action ends, with no more history than before. -/
abbrev Unrecorded (x : Store × List Moment) (P : Scene → α → Prop) (y : Store × List Moment) (a : α) : Prop :=
  y.2 = x.2 ∧ P y.1.scene a

namespace Loyal

variable {x : Store × List Moment} {P P' : Store × List Moment → α → Prop} {Q : Store × List Moment → β → Prop}
  {R : Scene → α → Prop}

theorem weaken {p : Traced α} (h : Loyal x P p) (hP : ∀ y a, Onward x y → P y a → P' y a) : Loyal x P' p :=
  ⟨fun a y hy => ⟨(h.1 a y hy).1, hP y a (h.1 a y hy).1 (h.1 a y hy).2⟩, h.2⟩

theorem pure {a : α} (hx : Safe x) (h : P x a) : Loyal x P (Pure.pure a) := by
  refine ⟨fun b y hy => ?_, fun e y hy => nomatch hy⟩
  rw [pure_apply] at hy
  cases hy
  exact ⟨.refl hx, h⟩

theorem bind {p : Traced α} {k : α → Traced β} (hp : Loyal x P p)
    (hk : ∀ y a, Onward x y → P y a → Loyal y Q (k a)) : Loyal x Q (p >>= k) := by
  cases hpx : p x with
  | error e y =>
    refine ⟨fun b z hz => ?_, fun e' z hz => ?_⟩ <;> rw [bind_error hpx] at hz <;> cases hz
    exact hp.2 e y hpx
  | ok a y =>
    obtain ⟨hy, hpost⟩ := hp.1 a y hpx
    obtain ⟨hok, herror⟩ := hk y a hy hpost
    refine ⟨fun b z hz => ?_, fun e z hz => ?_⟩ <;> rw [bind_ok hpx] at hz
    · exact ⟨hy.trans (hok b z hz).1, (hok b z hz).2⟩
    · exact hy.trans (herror e z hz)

theorem blaming {p : Traced α} (line : Int) (hp : Loyal x P p) : Loyal x P (Traced.blaming line p) := by
  unfold Loyal Traced.blaming
  cases hpx : p x with
  | ok a y => exact ⟨fun b z hz => by cases hz; exact hp.1 a y hpx, fun e z hz => nomatch hz⟩
  | error e y => exact ⟨fun b z hz => (nomatch hz), fun e z hz => by cases hz; exact hp.2 _ y hpx⟩

theorem within {inner : Chain} {p : Traced α} (hp : Loyal ({ x.1 with chain := inner }, x.2) P p)
    (hP : ∀ y a, P y a → P' ({ y.1 with chain := x.1.chain }, y.2) a) : Loyal x P' (Traced.within inner p) := by
  have hback : ∀ y, Onward ({ x.1 with chain := inner }, x.2) y → Onward x ({ y.1 with chain := x.1.chain }, y.2) :=
    fun y hy => ⟨hy.safe.congr rfl rfl rfl, hy.later, rfl, hy.depth⟩
  unfold Loyal Traced.within
  cases hpx : p ({ x.1 with chain := inner }, x.2) with
  | ok a y =>
    refine ⟨fun b z hz => ?_, fun e z hz => nomatch hz⟩
    cases hz
    exact ⟨hback y (hp.1 a y hpx).1, hP y a (hp.1 a y hpx).2⟩
  | error e y =>
    refine ⟨fun b z hz => (nomatch hz), fun e z hz => ?_⟩
    cases hz
    exact hback y (hp.2 e y hpx)

theorem marked {j : Node} {mark : α → Store → Moment} {p : Traced α} (hx : Safe x)
    (hbegun : Begun x.1.scene x.1.self? (sites x.2) j)
    (hp : Safe (x.1, x.2 ++ [.came j x.1]) → Loyal (x.1, x.2 ++ [.came j x.1]) P p)
    (hmark : ∀ y a, Onward (x.1, x.2 ++ [.came j x.1]) y → P y a → (mark a y.1).store = y.1 ∧ (mark a y.1).Apt y.2 ∧
      (sites (y.2 ++ [mark a y.1])).length = (sites x.2).length ∧ P' (y.1, y.2 ++ [mark a y.1]) a)
    (hstop : ∀ y e, p (x.1, x.2 ++ [.came j x.1]) = .error e y → (Moment.stopped j e y.1).Apt y.2) :
    Loyal x P' (Traced.marked j mark p) := by
  have hp := hp (hx.record rfl hbegun)
  unfold Loyal Traced.marked
  cases hpx : p (x.1, x.2 ++ [.came j x.1]) with
  | ok a y =>
    obtain ⟨hy, hpost⟩ := hp.1 a y hpx
    obtain ⟨hstore, hapt, hdepth, hpost'⟩ := hmark y a hy hpost
    refine ⟨fun b z hz => ?_, fun e z hz => nomatch hz⟩
    cases hz
    exact ⟨⟨hy.safe.record hstore hapt, hy.later, hy.chain, hdepth⟩, hpost'⟩
  | error e y =>
    have hy := hp.2 e y hpx
    refine ⟨fun b z hz => (nomatch hz), fun e z hz => ?_⟩
    cases hz
    refine ⟨hy.safe.record rfl (hstop y _ hpx), hy.later, hy.chain, ?_⟩
    have hdepth := hy.depth
    rw [sites_append] at hdepth ⊢
    simp only [Site.after, List.length_tail, hdepth]
    cases j <;> simp [Site.enter]

theorem act {q : Exec α} (hok : ∀ a s, q x.1 = .ok a s → Onward x (s, x.2) ∧ R s.scene a)
    (herror : ∀ e s, q x.1 = .error e s → Onward x (s, x.2)) : Loyal x (Unrecorded x R) (Traced.act q) := by
  unfold Loyal Traced.act
  cases hq : q x.1 with
  | ok a s =>
    refine ⟨fun b z hz => ?_, fun e z hz => nomatch hz⟩
    cases hz
    exact ⟨(hok a s hq).1, rfl, (hok a s hq).2⟩
  | error e s =>
    refine ⟨fun b z hz => (nomatch hz), fun e z hz => ?_⟩
    cases hz
    exact herror _ s hq

theorem throw (hx : Safe x) (e : Stop) : Loyal x P (Traced.act (MonadExcept.throw e : Exec α)) :=
  ⟨fun a y hy => (nomatch hy), fun e y hy => by cases hy; exact .refl hx⟩

theorem fault (hx : Safe x) (cause : Fault.Cause) (line : Option Int) :
    Loyal x P (Traced.act (Exec.fault cause line : Exec α)) := throw hx _

theorem endless (hx : Safe x) : Loyal x P (Traced.act (Exec.endless : Exec α)) := throw hx _

theorem get {k : Store → Traced β} (hk : Loyal x Q (k x.1)) : Loyal x Q (Traced.act MonadState.get >>= k) := hk

theorem modifyGet {f : Store → α × Store} (h : Onward x ((f x.1).2, x.2)) (hR : R (f x.1).2.scene (f x.1).1) :
    Loyal x (Unrecorded x R) (Traced.act (MonadStateOf.modifyGet f)) :=
  act (fun a s hf => by cases hf; exact ⟨h, hR⟩) fun e s hf => nomatch hf

theorem update {f : Store → Store} (h : Onward x (f x.1, x.2)) :
    Loyal x (Unrecorded x fun _ _ => True) (Traced.act (modify f)) := modifyGet h trivial

theorem act_bind {q : Exec α} {k : α → Exec β} (hq : Loyal x P (Traced.act q))
    (hk : ∀ y a, Onward x y → P y a → Loyal y Q (Traced.act (k a))) : Loyal x Q (Traced.act (q >>= k)) := by
  rw [Traced.act_bind]
  exact hq.bind hk

theorem freshId (hx : Safe x) : Loyal x (Unrecorded x fun _ _ => True) (Traced.act Exec.freshId) :=
  modifyGet (hx.onward rfl rfl rfl rfl) trivial

theorem print (hx : Safe x) (text : String) : Loyal x (Unrecorded x fun _ _ => True) (Traced.act (Exec.print text)) :=
  update (hx.onward rfl rfl rfl rfl)

theorem pushFrame (hx : Safe x) {contents : Bindings Value} (outer : Chain)
    (hcontents : ∀ name v, contents.find? name = some v → v.Known x.1.scene)
    (hself : contents.contains selfName = true → ∃ id c, contents = ⟨[(selfName, .object id c)]⟩) :
    Loyal x (Unrecorded x fun w c => c = .link x.1.frames.size outer ∧ x.1.frames.size < w.frames.size ∧
      w.frames.frame x.1.frames.size = contents) (Traced.act (Exec.pushFrame contents outer)) := by
  refine modifyGet (hx.pushFrame hcontents hself) ⟨rfl, ?_, ?_⟩
  · simp [Store.scene]
  · simp [Store.scene, Frames.frame_push]

theorem defineIn (hx : Safe x) {f : Nat} (hf : x.1.scene.Plain f) {name : String} (hname : name ≠ selfName) {v : Value}
    (hv : v.Known x.1.scene) : Loyal x (Unrecorded x fun w _ => (w.frames.frame f).find? name = some v)
      (Traced.act (Exec.defineIn f name v)) := by
  have hlt : f < x.1.frames.size := hf.1
  refine modifyGet (hx.define hf hname hv) ?_
  simp [Store.scene, Frames.frame_define, hlt, Bindings.find?_put]

theorem define (hx : Safe x) (hf : x.1.scene.Plain x.1.chain.frame) {name : String} (hname : name ≠ selfName) {v : Value}
    (hv : v.Known x.1.scene) :
    Loyal x (Unrecorded x fun w _ => (w.frames.frame x.1.chain.frame).find? name = some v)
      (Traced.act (Exec.define name v)) := by
  rw [Exec.define, Traced.act_bind]
  exact get (defineIn hx hf hname hv)

theorem newList (hx : Safe x) {as : List Value} (has : ∀ a ∈ as, a.Known x.1.scene) :
    Loyal x (Unrecorded x fun w a => a.Known w) (Traced.act (Exec.newList as.toArray)) :=
  modifyGet (hx.withLists (forall_mem_push hx.lists has)) (.list _)

theorem newObject (hx : Safe x) {c : Class} (hc : c.Known x.1.scene) :
    Loyal x (Unrecorded x fun w a => a = .object x.1.objects.size c ∧ a.Known w)
      (Traced.act (Exec.newObject c)) := by
  have hsize : (x.1.objects.push ⟨[]⟩).size = x.1.objects.size + 1 := Array.size_push _
  have hnew : Onward x ({ x.1 with objects := x.1.objects.push ⟨[]⟩ }, x.2) :=
    hx.withObjects (by omega) (Bindings.all_push hx.fields .empty)
  refine modifyGet hnew ⟨rfl, .object ?_ (hc.mono hnew.later)⟩
  change _ < (x.1.objects.push ⟨[]⟩).size
  omega

theorem setField (hx : Safe x) (id : Nat) (name : String) {a : Value} (ha : a.Known x.1.scene) :
    Loyal x (Unrecorded x fun _ _ => True) (Traced.act (Exec.setField id name a)) :=
  update (hx.withObjects (by simp) (Bindings.all_modify_put hx.fields name ha id))

section lists

theorem of_acts (hx : Safe x) {line : Option Int} {post : α → α → Prop} {q : Exec α}
    (h : Acts line line (Value.Itself (·.Known x.1.scene)) post q q) :
    Loyal x (fun y a => y.2 = x.2 ∧ y.1.scene = x.1.scene ∧ post a a) (Traced.act q) := by
  obtain ⟨l, c, hl, hends⟩ := h.alone hx.lists
  have honward : Onward x ({ x.1 with lists := l, clock := c }, x.2) := hx.withLists hl
  unfold Loyal Traced.act
  obtain ⟨a, hpost, hq⟩ | ⟨e, -, hq⟩ := hends
  · rw [hq]
    refine ⟨fun b y hy => ?_, fun e y hy => nomatch hy⟩
    cases hy
    exact ⟨honward, rfl, rfl, hpost⟩
  · rw [hq]
    refine ⟨fun b y hy => (nomatch hy), fun e y hy => ?_⟩
    cases hy
    exact honward

theorem value_of_acts (hx : Safe x) {line : Option Int} {q : Exec Value}
    (h : Acts line line (Value.Itself (·.Known x.1.scene)) (Value.Itself (·.Known x.1.scene)) q q) :
    Loyal x (Unrecorded x fun w a => a.Known w) (Traced.act q) :=
  (of_acts hx h).weaken fun _ _ _ hy => ⟨hy.1, hy.2.1 ▸ hy.2.2.2⟩

theorem text (hx : Safe x) {a : Value} (ha : a.Known x.1.scene) :
    Loyal x (Unrecorded x fun _ _ => True) (Traced.act (Exec.text a)) :=
  have hacts : Acts none none _ _ (Exec.text a) (Exec.text a) := Acts.text (Value.Known.lookalike x.1.scene) ⟨rfl, ha⟩
  (of_acts hx hacts).weaken fun _ _ _ hy => ⟨hy.1, trivial⟩

end lists

section access

variable {l : List (Bindings Bool)} {a : Option Value}

theorem read (hx : Safe x) (name : Token) (hops : Option Nat) :
    Loyal x (Unrecorded x fun w a => a.Known w) (Traced.act (Addressing.byDistance.read name hops)) := by
  cases hops with
  | some d =>
    simp only [Addressing.byDistance, Exec.findAt, Traced.act_bind]
    refine get ?_
    unfold Frames.findAt?
    cases x.1.chain.out? d with
    | none => exact throw hx _
    | some c => exact pure hx ⟨rfl, Bindings.All.getD (hx.frames c.frame) .nil name.lexeme⟩
  | none =>
    simp only [Addressing.byDistance, Exec.find, Traced.act_bind]
    refine get ?_
    simp only [Frames.find?, globals]
    cases hfind : (x.1.frames.frame 0).find? name.lexeme with
    | none => exact fault hx _ _
    | some a => exact pure hx ⟨rfl, hx.frames _ _ a hfind⟩

theorem read_self_eq {keyword : Token} (hkeyword : keyword.lexeme = selfName) {self : Value}
    (hl : x.1.scene.Aligned l x.1.chain (some self)) :
    Traced.act (Addressing.byDistance.read keyword (Scopes.hops? selfName l)) x = .ok self x := by
  obtain ⟨-, hnone⟩ | ⟨d, c, _, hd, hout, hbinds, hself⟩ := hl.hops?_self
  · cases hnone
  obtain rfl := Option.some.inj hself
  have hfind : (x.1.frames.frame c.frame).find? selfName = some self := by
    rw [show x.1.frames.frame c.frame = _ from hbinds]
    rfl
  rw [hd]
  simp only [Traced.act, Addressing.byDistance, Exec.findAt, get_bind, Frames.findAt?, hout, Option.map_some, hkeyword,
    hfind, Option.getD_some, pure_apply]

theorem read_self (hx : Safe x) {keyword : Token} (hkeyword : keyword.lexeme = selfName) {hops : Option Nat}
    (hl : x.1.scene.Aligned l x.1.chain a) (hhops : hops = Scopes.hops? selfName l) :
    Loyal x (Unrecorded x fun w v => v.Known w ∧ a = some v)
      (Traced.act (Addressing.byDistance.read keyword hops)) := by
  cases a with
  | some self =>
    have hread := read_self_eq hkeyword hl
    rw [← hhops] at hread
    have hknown : self.Known x.1.scene := by
      obtain ⟨-, hnone⟩ | ⟨d, c, _, -, -, hbinds, hself⟩ := hl.hops?_self
      · cases hnone
      · obtain rfl := Option.some.inj hself
        exact hx.frames c.frame selfName self (by rw [show x.1.frames.frame c.frame = _ from hbinds]; rfl)
    refine ⟨fun v y hy => ?_, fun e y hy => ?_⟩ <;> rw [hread] at hy <;> cases hy
    exact ⟨.refl hx, rfl, hknown, rfl⟩
  | none =>
    obtain rfl : hops = none := by
      obtain ⟨hnone, -⟩ | ⟨_, _, _, -, -, -, hself⟩ := hl.hops?_self
      · exact hhops.trans hnone
      · cases hself
    have hnone : (x.1.frames.frame 0).find? selfName = none := hx.top.find?
    simp only [Addressing.byDistance, Exec.find, Traced.act_bind]
    refine get ?_
    simp only [Frames.find?, globals, hkeyword, hnone]
    exact fault hx _ _

theorem write (hx : Safe x) {name : Token} (hname : name.lexeme ≠ selfName) {hops : Option Nat}
    (hhops : hops = Scopes.hops? name.lexeme l) (hl : x.1.scene.Aligned l x.1.chain a) {v : Value}
    (hv : v.Known x.1.scene) :
    Loyal x (Unrecorded x fun _ _ => True) (Traced.act (Addressing.byDistance.write name hops v)) := by
  have hdefine : ∀ {f}, x.1.scene.Plain f →
      Loyal x (Unrecorded x fun _ _ => True) (Traced.act (Exec.defineIn f name.lexeme v)) :=
    fun hf => (defineIn hx hf hname hv).weaken fun _ _ _ hy => ⟨hy.1, trivial⟩
  cases hops with
  | some d =>
    obtain ⟨c, hout, hplain⟩ := hl.hops?_plain hname hhops.symm
    simp only [Addressing.byDistance, Exec.assignAt, Traced.act_bind]
    refine get ?_
    simp only [hout]
    exact hdefine hplain
  | none =>
    simp only [Addressing.byDistance, Exec.assign, Traced.act_bind]
    refine get ?_
    simp only [Frames.holder?, globals]
    by_cases hheld : (x.1.frames.frame 0).contains name.lexeme = true
    · simp only [hheld, if_true]
      exact hdefine hx.top
    · simp only [hheld]
      exact fault hx _ _

end access

end Loyal

end LoxLang
