import LoxLang.Proofs.History.Situated
import LoxLang.Proofs.Running.Operators

namespace LoxLang

def Node.read? : Node → Option (Token × Nat)
  | .expr (.ref name (some d)) | .expr (.self name (some d)) => some (name, d)
  | _ => none

/-- A read of a variable within the initial value of that variable, by a function made there. The declaration
that the read is bound to has begun in the frame that the read leads to, and has not completed there. -/
inductive Uninitialized (programs : List (List Stmt)) (past : List Moment) (j : Node) (name : Token) (d : Nat)
    (frame : Nat) : Prop
  | intro {program : List Stmt} {Δ Δ' Δ'' : Context} {decl : Token} {e : Expr} {f : Lambda}
    (hprogram : program ∈ programs) (hread : Occurs program Δ j)
    (hhops : Scopes.hops? name.lexeme Δ.seen = some d)
    (hdecl : Occurs program Δ' (.stmt (.varDecl decl (some e)))) (hname : decl.lexeme = name.lexeme)
    (hscope : Δ.levels.drop d = (Δ'.put decl.lexeme false).levels)
    (hfunction : Reaches (Δ'.put decl.lexeme false, .expr e) (Δ'', .expr (.function f)))
    (hinside : Reaches (Δ'', .expr (.function f)) (Δ, j))
    (hbegun : ∃ s, .came (.stmt (.varDecl decl (some e))) s ∈ past ∧ s.chain.frame = frame)
    (hincomplete : ∀ s, .ended (.varDecl decl (some e)) .normal s ∈ past → s.chain.frame ≠ frame) :
    Uninitialized programs past j name d frame

/-- What is true of a moment after what happened before: no frame has lost a name, a declaration that completes
has its name in its frame, and a read finds its name unless that has no initial value yet. -/
structure Told (programs : List (List Stmt)) (past : List Moment) (m : Moment) : Prop where
  kept : ∀ m' ∈ past, ∀ f name, (m'.store.frames.frame f).contains name = true →
    (m.store.frames.frame f).contains name = true
  completed : ∀ t s, m = .ended t .normal s → ∀ name ∈ t.declares,
    (s.frames.frame s.chain.frame).contains name = true
  read : ∀ j s name d, m = .came j s → j.read? = some (name, d) → ∃ c, s.chain.out? d = some c ∧
    ((s.frames.frame c.frame).contains name.lexeme = false → Uninitialized programs past j name d c.frame)

abbrev Traced.world (x : Store × List Moment) : World := ⟨x.1.frames, x.2⟩

open Traced (world act)
open Stopping

structure Sound (programs : List (List Stmt)) (x : Store × List Moment) : Prop where
  top : 0 < x.1.frames.size
  frames : ∀ f name v, (x.1.frames.frame f).find? name = some v → v.Fits programs (world x)
  lists : ∀ id, ∀ v ∈ x.1.items id, v.Fits programs (world x)
  fields : ∀ id name v, (x.1.fields id).find? name = some v → v.Fits programs (world x)
  past : ∀ m ∈ x.2, ∀ f name, (m.store.frames.frame f).contains name = true → (world x).Holds f name
  told : ∀ earlier m later, x.2 = earlier ++ m :: later → Told programs earlier m

/-- The second of two states comes of the first, on the same chain. -/
structure Kept (programs : List (List Stmt)) (x y : Store × List Moment) : Prop where
  sound : Sound programs y
  later : (world x).Later (world y)
  chain : y.1.chain = x.1.chain

section sound

variable {programs : List (List Stmt)} {x y z : Store × List Moment}

theorem Kept.refl (h : Sound programs x) : Kept programs x x := ⟨h, .refl _, rfl⟩

theorem Kept.trans (h : Kept programs x y) (h' : Kept programs y z) : Kept programs x z :=
  ⟨h'.sound, h.later.trans h'.later, h'.chain.trans h.chain⟩

theorem Sound.congr {s : Store} (h : Sound programs x) (hframes : s.frames = x.1.frames)
    (hlists : s.lists = x.1.lists) (hobjects : s.objects = x.1.objects) : Sound programs (s, x.2) := by
  have hworld : world (s, x.2) = world x := by rw [world, hframes]
  refine ⟨hframes ▸ h.top, fun f name v hv => ?_, fun id v hv => ?_, fun id name v hv => ?_, fun m hm f name hf => ?_,
    h.told⟩
  · rw [hworld]
    exact h.frames f name v (hframes ▸ hv)
  · rw [hworld]
    exact h.lists id v (by simpa only [Store.items, hlists] using hv)
  · rw [hworld]
    exact h.fields id name v (by simpa only [Store.fields, hobjects] using hv)
  · rw [hworld]
    exact h.past m hm f name hf

theorem Sound.kept {s : Store} (h : Sound programs x) (hframes : s.frames = x.1.frames)
    (hlists : s.lists = x.1.lists) (hobjects : s.objects = x.1.objects) (hchain : s.chain = x.1.chain) :
    Kept programs x (s, x.2) :=
  ⟨h.congr hframes hlists hobjects, ⟨List.prefix_refl _, by simp [hframes], fun hf => by
    simpa only [World.Holds, hframes] using hf⟩, hchain⟩

theorem Sound.withFrames {frames : Frames Value} (h : Sound programs x)
    (hlater : (world x).Later ⟨frames, x.2⟩)
    (hframes : ∀ f name v, (frames.frame f).find? name = some v → v.Fits programs ⟨frames, x.2⟩) :
    Kept programs x ({ x.1 with frames }, x.2) where
  sound := {
    top := Nat.lt_of_lt_of_le h.top hlater.size
    frames := hframes
    lists := fun id v hv => (h.lists id v hv).mono hlater
    fields := fun id name v hv => (h.fields id name v hv).mono hlater
    past := fun m hm f name hf => hlater.held (h.past m hm f name hf)
    told := h.told }
  later := hlater
  chain := rfl

theorem Sound.pushFrame {contents : Bindings Value} (h : Sound programs x)
    (hcontents : ∀ name v, contents.find? name = some v → v.Fits programs (world x)) :
    Kept programs x ({ x.1 with frames := x.1.frames.push contents }, x.2) := by
  have hheld : ∀ f, f ≠ x.1.frames.size → (x.1.frames.push contents).frame f = x.1.frames.frame f :=
    fun f hf => (Frames.frame_push _ _ _).trans (if_neg hf)
  have hnone : ∀ name, ¬(world x).Holds x.1.frames.size name := by
    simp [World.Holds, Frames.frame, Frames.size]
  have hlater : (world x).Later ⟨x.1.frames.push contents, x.2⟩ := by
    refine ⟨List.prefix_refl _, by simp, fun {f name} hf => ?_⟩
    by_cases heq : f = x.1.frames.size
    · exact absurd (heq ▸ hf) (hnone name)
    · simpa only [World.Holds, hheld f heq] using hf
  exact h.withFrames hlater (Bindings.all_push (fun f name v hv => (h.frames f name v hv).mono hlater)
    fun name v hv => (hcontents name v hv).mono hlater)

theorem World.later_define (w : World) (f : Nat) (name : String) (v : Value) :
    w.Later ⟨w.frames.define f name v, w.history⟩ := by
  refine ⟨List.prefix_refl _, by simp, fun {g other} hg => ?_⟩
  unfold World.Holds at hg ⊢
  simp only [Frames.frame_define]
  split
  · rename_i heq
    rw [Bindings.contains_put, ← heq.1, hg, Bool.or_true]
  · exact hg

theorem World.holds_define {w : World} {f : Nat} (hf : f < w.frames.size) (name : String) (v : Value) :
    World.Holds ⟨w.frames.define f name v, w.history⟩ f name := by
  simp [World.Holds, Frames.frame_define, hf, Bindings.contains_put]

theorem Sound.define {f : Nat} {name : String} {v : Value} (h : Sound programs x)
    (hv : v.Fits programs ⟨x.1.frames.define f name v, x.2⟩) :
    Kept programs x ({ x.1 with frames := x.1.frames.define f name v }, x.2) := by
  have hlater := World.later_define (world x) f name v
  exact h.withFrames hlater (Bindings.all_modify_put (fun g other u hu => (h.frames g other u hu).mono hlater) name hv f)

theorem Sound.withLists {lists : Array (Array Value)} {clock : Clock} (h : Sound programs x)
    (hlists : ∀ id : Nat, ∀ v ∈ lists[id]?.getD #[], v.Fits programs (world x)) :
    Kept programs x ({ x.1 with lists, clock }, x.2) where
  sound := { h with lists := hlists }
  later := .refl _
  chain := rfl

theorem Sound.withObjects {objects : Array (Bindings Value)} (h : Sound programs x)
    (hobjects : ∀ (id : Nat) name v, (objects[id]?.getD ⟨[]⟩).find? name = some v → v.Fits programs (world x)) :
    Kept programs x ({ x.1 with objects }, x.2) where
  sound := { h with fields := hobjects }
  later := .refl _
  chain := rfl

theorem Sound.record {m : Moment} (h : Sound programs x) (hm : m.store = x.1) (htold : Told programs x.2 m) :
    Kept programs x (x.1, x.2 ++ [m]) := by
  have hlater : (world x).Later (world (x.1, x.2 ++ [m])) := ⟨List.prefix_append _ _, Nat.le_refl _, id⟩
  refine ⟨⟨h.top, fun f name v hv => (h.frames f name v hv).mono hlater, fun id v hv => (h.lists id v hv).mono hlater,
    fun id name v hv => (h.fields id name v hv).mono hlater, fun m' hm' f name hf => ?_, fun earlier m' later heq => ?_⟩,
    hlater, rfl⟩
  · obtain hm' | hm' := List.mem_append.1 hm'
    · exact h.past m' hm' f name hf
    · rw [List.mem_singleton.1 hm', hm] at hf
      exact hf
  · obtain rfl | ⟨more, last, rfl⟩ := later.eq_nil_or_concat'
    · obtain ⟨rfl, hsame⟩ := List.append_inj' heq rfl
      exact (List.cons.inj hsame).1 ▸ htold
    · rw [← List.cons_append, ← List.append_assoc] at heq
      exact h.told earlier m' more (List.append_inj_left' heq rfl)

end sound

theorem Value.Fits.lookalike (programs : List (List Stmt)) (w : World) : Lookalike (Value.Itself (·.Fits programs w)) :=
  Value.Itself.lookalike .nil .bool .number .text

variable {α β : Type}

/-- From states later than a world, on a chain, an action keeps what is sound and ends with what a
postcondition says. -/
def Steady (programs : List (List Stmt)) (w : World) (chain : Chain) (post : World → α → Prop) (p : Traced α) :
    Prop :=
  ∀ x, w.Later (world x) → Sound programs x → x.1.chain = chain →
    (∀ a y, p x = .ok a y → Kept programs x y ∧ post (world y) a) ∧
      ∀ e y, p x = .error e y → Kept programs x y

namespace Steady

variable {programs : List (List Stmt)} {w v : World} {chain : Chain} {P : World → α → Prop} {Q : World → β → Prop}

theorem weaken {P' : World → α → Prop} {p : Traced α} (h : Steady programs w chain P p)
    (hP : ∀ v a, w.Later v → P v a → P' v a) : Steady programs w chain P' p := by
  intro x hx hs hc
  obtain ⟨hok, herror⟩ := h x hx hs hc
  refine ⟨fun a y hy => ?_, herror⟩
  obtain ⟨hkept, hpost⟩ := hok a y hy
  exact ⟨hkept, hP _ a (hx.trans hkept.later) hpost⟩

theorem pure {a : α} (h : ∀ v, w.Later v → P v a) : Steady programs w chain P (Pure.pure a) := by
  intro x hx hs hc
  refine ⟨fun b y hy => ?_, fun e y hy => nomatch hy⟩
  rw [pure_apply] at hy
  cases hy
  exact ⟨.refl hs, h _ hx⟩

theorem bind {p : Traced α} {k : α → Traced β} (hp : Steady programs w chain P p)
    (hk : ∀ v a, w.Later v → P v a → Steady programs v chain Q (k a)) : Steady programs w chain Q (p >>= k) := by
  intro x hx hs hc
  obtain ⟨hok, herror⟩ := hp x hx hs hc
  cases hpx : p x with
  | error e y =>
    rw [bind_error hpx]
    refine ⟨fun b z hz => (nomatch hz), fun e' z hz => ?_⟩
    cases hz
    exact herror _ _ hpx
  | ok a y =>
    rw [bind_ok hpx]
    obtain ⟨hkept, hpost⟩ := hok a y hpx
    obtain ⟨hok', herror'⟩ := hk _ a (hx.trans hkept.later) hpost y (.refl _) hkept.sound (hkept.chain.trans hc)
    refine ⟨fun b z hz => ?_, fun e z hz => hkept.trans (herror' e z hz)⟩
    obtain ⟨hkept', hpost'⟩ := hok' b z hz
    exact ⟨hkept.trans hkept', hpost'⟩

theorem blaming {p : Traced α} (line : Int) (hp : Steady programs w chain P p) :
    Steady programs w chain P (Traced.blaming line p) := by
  intro x hx hs hc
  obtain ⟨hok, herror⟩ := hp x hx hs hc
  unfold Traced.blaming
  cases hpx : p x with
  | ok a y => exact ⟨fun b z hz => by cases hz; exact hok a y hpx, fun e z hz => nomatch hz⟩
  | error e y => exact ⟨fun b z hz => (nomatch hz), fun e z hz => by cases hz; exact herror _ y hpx⟩

theorem within {inner : Chain} {p : Traced α} (hp : Steady programs w inner P p) :
    Steady programs w chain P (Traced.within inner p) := by
  intro x hx hs hc
  obtain ⟨hok, herror⟩ := hp ({ x.1 with chain := inner }, x.2) hx (hs.congr rfl rfl rfl) rfl
  have hback : ∀ y, Kept programs ({ x.1 with chain := inner }, x.2) y →
      Kept programs x ({ y.1 with chain := x.1.chain }, y.2) :=
    fun y hy => ⟨hy.sound.congr rfl rfl rfl, hy.later, rfl⟩
  unfold Traced.within
  cases hpx : p ({ x.1 with chain := inner }, x.2) with
  | ok a y =>
    refine ⟨fun b z hz => ?_, fun e z hz => nomatch hz⟩
    cases hz
    obtain ⟨hkept, hpost⟩ := hok a y hpx
    exact ⟨hback y hkept, hpost⟩
  | error e y =>
    refine ⟨fun b z hz => (nomatch hz), fun e z hz => ?_⟩
    cases hz
    exact hback y (herror _ y hpx)

theorem exec {q : Exec α} (h : ∀ x, w.Later (world x) → Sound programs x → x.1.chain = chain →
    (∀ a s, q x.1 = .ok a s → Kept programs x (s, x.2) ∧ P ⟨s.frames, x.2⟩ a) ∧
      ∀ e s, q x.1 = .error e s → Kept programs x (s, x.2)) : Steady programs w chain P (act q) := by
  intro x hx hs hc
  obtain ⟨hok, herror⟩ := h x hx hs hc
  unfold act
  cases hq : q x.1 with
  | ok a s => exact ⟨fun b z hz => by cases hz; exact hok a s hq, fun e z hz => nomatch hz⟩
  | error e s => exact ⟨fun b z hz => (nomatch hz), fun e z hz => by cases hz; exact herror _ s hq⟩

theorem throw (e : Stop) : Steady programs w chain P (act (MonadExcept.throw e : Exec α)) :=
  exec fun x _ hs _ => ⟨fun a s h => (nomatch h), fun e s h => by cases h; exact .refl hs⟩

theorem fault (cause : Fault.Cause) (line : Option Int) :
    Steady programs w chain P (act (Exec.fault cause line : Exec α)) := throw _

theorem endless : Steady programs w chain P (act (Exec.endless : Exec α)) := throw _

theorem exec_bind {q : Exec α} {k : α → Exec β} (hq : Steady programs w chain P (act q))
    (hk : ∀ v a, w.Later v → P v a → Steady programs v chain Q (act (k a))) :
    Steady programs w chain Q (act (q >>= k)) := by
  rw [Traced.act_bind]
  exact hq.bind hk

theorem exec_pure {a : α} (h : ∀ v, w.Later v → P v a) : Steady programs w chain P (act (Pure.pure a)) := pure h

theorem get {k : Store → Traced β} (hk : ∀ x, w.Later (world x) → Sound programs x → x.1.chain = chain →
    Steady programs (world x) chain Q (k x.1)) : Steady programs w chain Q (act MonadState.get >>= k) :=
  fun x hx hs hc => hk x hx hs hc x (.refl _) hs hc

theorem exec_get {k : Store → Exec β} (hk : ∀ x, w.Later (world x) → Sound programs x → x.1.chain = chain →
    Steady programs (world x) chain Q (act (k x.1))) :
    Steady programs w chain Q (act ((MonadState.get : Exec Store) >>= k)) := by
  rw [Traced.act_bind]
  exact get hk

theorem modifyGet {f : Store → α × Store} (h : ∀ x, w.Later (world x) → Sound programs x → x.1.chain = chain →
    Kept programs x ((f x.1).2, x.2) ∧ P ⟨(f x.1).2.frames, x.2⟩ (f x.1).1) :
    Steady programs w chain P (act (MonadStateOf.modifyGet f)) :=
  exec fun x hx hs hc => ⟨fun a s hf => by cases hf; exact h x hx hs hc, fun e s hf => nomatch hf⟩

theorem update {f : Store → Store} (h : ∀ x, w.Later (world x) → Sound programs x → x.1.chain = chain →
    Kept programs x (f x.1, x.2)) : Steady programs w chain (fun _ _ => True) (act (modify f)) :=
  modifyGet fun x hx hs hc => ⟨h x hx hs hc, trivial⟩

theorem pushFrame {contents : Bindings Value} {outer : Chain}
    (hcontents : ∀ name v, contents.find? name = some v → v.Fits programs w) :
    Steady programs w chain (fun v c => ∃ f, c = .link f outer ∧ f < v.frames.size ∧
      ∀ name, contents.contains name = true → v.Holds f name) (act (Exec.pushFrame contents outer)) := by
  refine modifyGet fun x hx hs hc => ⟨hs.pushFrame fun name v hv => (hcontents name v hv).mono hx, _, rfl, ?_, ?_⟩
  · simp
  · intro name hname
    simpa [World.Holds, Frames.frame_push] using hname

theorem define {name : String} {a : Value} (hframe : chain.frame < w.frames.size)
    (ha : ∀ v, w.Later v → v.Holds chain.frame name → a.Fits programs v) :
    Steady programs w chain (fun v _ => v.Holds chain.frame name) (act (Exec.define name a)) := by
  refine exec_get fun x hx hs hc => ?_
  refine modifyGet fun y hy hs' hc' => ?_
  rw [hc]
  have hlt : chain.frame < y.1.frames.size :=
    Nat.lt_of_lt_of_le hframe (hx.trans hy).size
  have hheld := World.holds_define (w := world y) hlt name a
  have hlater := World.later_define (world y) chain.frame name a
  exact ⟨hs'.define (ha _ ((hx.trans hy).trans hlater) hheld), hheld⟩

theorem freshId : Steady programs w chain (fun _ _ => True) (act Exec.freshId) :=
  modifyGet fun _ _ hs _ => ⟨hs.kept rfl rfl rfl rfl, trivial⟩

theorem newList {as : List Value} (has : ∀ a ∈ as, a.Fits programs w) :
    Steady programs w chain (fun v a => a.Fits programs v) (act (Exec.newList as.toArray)) :=
  modifyGet fun _ hx hs _ => ⟨hs.withLists (forall_mem_push hs.lists fun a ha => (has a ha).mono hx), .list _⟩

theorem value_of_acts {line : Option Int} {q : Exec Value} (h : ∀ v, w.Later v →
    Acts line line (Value.Itself (·.Fits programs v)) (Value.Itself (·.Fits programs v)) q q) :
    Steady programs w chain (fun v a => a.Fits programs v) (act q) := by
  refine exec fun x hx hs _ => ?_
  obtain ⟨l, c, hl, hends⟩ := (h _ hx).alone hs.lists
  have hkept : Kept programs x ({ x.1 with lists := l, clock := c }, x.2) := hs.withLists hl
  obtain ⟨a, hfits, hq⟩ | ⟨e, -, hq⟩ := hends
  · rw [hq]
    refine ⟨fun b s h => ?_, fun e s h => nomatch h⟩
    cases h
    exact ⟨hkept, hfits.2⟩
  · rw [hq]
    refine ⟨fun b s h => (nomatch h), fun e s h => ?_⟩
    cases h
    exact hkept

theorem newObject {c : Class} (hc : c.Fits programs w) :
    Steady programs w chain (fun v a => a.Fits programs v) (act (Exec.newObject c)) :=
  modifyGet fun _ hx hs _ => ⟨hs.withObjects (Bindings.all_push hs.fields .empty), .object _ (hc.mono hx)⟩

theorem setField (id : Nat) (name : String) {a : Value} (ha : a.Fits programs w) :
    Steady programs w chain (fun _ _ => True) (act (Exec.setField id name a)) :=
  update fun _ hx hs _ => hs.withObjects (Bindings.all_modify_put hs.fields name (ha.mono hx) id)

theorem print (text : String) : Steady programs w chain (fun _ _ => True) (act (Exec.print text)) :=
  update fun _ _ hs _ => hs.kept rfl rfl rfl rfl

theorem text (a : Value) : Steady programs w chain (fun _ _ => True) (act (Exec.text a)) := by
  refine exec_get fun x _ _ _ => ?_
  cases a.text? x.1.lists with
  | some t => exact exec_pure fun _ _ => trivial
  | none => exact endless

end Steady

end LoxLang
