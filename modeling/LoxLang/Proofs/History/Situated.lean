import LoxLang.Proofs.History.Traced
import LoxLang.Proofs.Tree.Initializer

namespace LoxLang

structure World where
  frames : Frames Value
  history : List Moment

namespace World

def Holds (w : World) (f : Nat) (name : String) : Prop := (w.frames.frame f).contains name = true

/-- Nothing that a frame holds or that happened is lost. -/
structure Later (w v : World) : Prop where
  history : w.history <+: v.history
  size : w.frames.size ≤ v.frames.size
  held : ∀ {f name}, w.Holds f name → v.Holds f name

theorem Later.refl (w : World) : w.Later w := ⟨List.prefix_refl _, Nat.le_refl _, id⟩

theorem Later.trans {u v w : World} (h : u.Later v) (h' : v.Later w) : u.Later w :=
  ⟨h.history.trans h'.history, Nat.le_trans h.size h'.size, fun hf => h'.held (h.held hf)⟩

end World

/-- The name is that of a variable whose initial value was begun in the frame, and has the node in it. -/
def Pending (program : List Stmt) (w : World) (x : Context × Node) (levels : List Level) (f : Nat)
    (name : String) : Prop :=
  ∃ Δ decl e, decl.lexeme = name ∧ Occurs program Δ (.stmt (.varDecl decl (some e))) ∧
    (Δ.put decl.lexeme false).levels = levels ∧ Reaches (Δ.put decl.lexeme false, .expr e) x ∧
    ∃ s, .came (.stmt (.varDecl decl (some e))) s ∈ w.history ∧ s.chain.frame = f

theorem Pending.mono {program : List Stmt} {w v : World} {x y : Context × Node} {levels : List Level} {f : Nat}
    {name : String} (h : Pending program w x levels f name) (hv : w.Later v) (hxy : Reaches x y) :
    Pending program v y levels f name := by
  obtain ⟨Δ, decl, e, hname, ho, hlevels, hr, s, hs, hf⟩ := h
  exact ⟨Δ, decl, e, hname, ho, hlevels, hr.trans hxy, s, hv.history.subset hs, hf⟩

/-- The frames of a chain hold what is declared on its levels. -/
inductive Covers (w : World) (pending : List Level → Nat → String → Prop) : List Level → Chain → Prop
  | root {f : Nat} (hf : f < w.frames.size) : Covers w pending [] (.root f)
  | link {l : Level} {ls : List Level} {f : Nat} {outer : Chain} (hf : f < w.frames.size)
      (hcomplete : ∀ name, l.seen.find? name = some true → w.Holds f name)
      (hpending : ∀ name, l.seen.find? name = some false → pending (l :: ls) f name)
      (houter : Covers w pending ls outer) : Covers w pending (l :: ls) (.link f outer)

namespace Covers

variable {w v : World} {P Q : List Level → Nat → String → Prop} {ls : List Level} {chain : Chain}

theorem mono (h : Covers w P ls chain) (hv : w.Later v) (hPQ : ∀ {ls f name}, P ls f name → Q ls f name) :
    Covers v Q ls chain := by
  induction h with
  | root hf => exact .root (Nat.lt_of_lt_of_le hf hv.size)
  | link hf hcomplete hpending _ ih =>
    exact .link (Nat.lt_of_lt_of_le hf hv.size) (fun name h => hv.held (hcomplete name h))
      (fun name h => hPQ (hpending name h)) ih

theorem frame_lt (h : Covers w P ls chain) : chain.frame < w.frames.size := by
  cases h with
  | root hf => exact hf
  | link hf => exact hf

theorem out? (h : Covers w P ls chain) {d : Nat} {l : Level} (hl : ls[d]? = some l) :
    ∃ c, chain.out? d = some c ∧ (∀ name, l.seen.find? name = some true → w.Holds c.frame name) ∧
      ∀ name, l.seen.find? name = some false → P (ls.drop d) c.frame name := by
  induction h generalizing d with
  | root => cases hl
  | link hf hcomplete hpending _ ih =>
    cases d with
    | zero =>
      obtain rfl := Option.some.inj hl
      exact ⟨_, rfl, hcomplete, hpending⟩
    | succ d => exact ih hl

theorem put {Δ : Context} (h : Covers w P Δ.levels chain) (hsettled : Δ.Settled) {name : String} {complete : Bool}
    (hcomplete : complete = true → w.Holds chain.frame name)
    (hpending : complete = false → P (Δ.put name false).levels chain.frame name) :
    Covers w P (Δ.put name complete).levels chain := by
  obtain ⟨_ | ⟨l, ls⟩, here⟩ := Δ
  · exact h
  · obtain _ | @⟨_, _, f, outer, hf, hold, -, houter⟩ := h
    refine .link hf (fun other hother => ?_) (fun other hother => ?_) houter
    · rw [Bindings.find?_put] at hother
      split at hother
      · rename_i heq
        exact heq ▸ hcomplete (Option.some.inj hother)
      · exact hold other hother
    · rw [Bindings.find?_put] at hother
      split at hother
      · rename_i heq
        obtain rfl := Option.some.inj hother
        exact heq ▸ hpending rfl
      · exact absurd hother (hsettled l rfl other)

theorem after {Δ : Context} (h : Covers w P Δ.levels chain) (hsettled : Δ.Settled) {t : Stmt}
    (ht : ∀ name ∈ t.declares, w.Holds chain.frame name) : Covers w P (t.after Δ).levels chain := by
  unfold Stmt.after
  cases t with
  | varDecl name _ | funDecl name _ | classDecl name _ =>
    exact h.put hsettled (fun _ => ht _ (by simp [Stmt.declares])) nofun
  | _ => exact h

end Covers

section fits

variable (programs : List (List Stmt)) (w : World)

/-- A node of one of the programs, on a chain that holds what is declared around it. -/
def Situated (chain : Chain) (x : Context × Node) : Prop :=
  ∃ program ∈ programs, Occurs program x.1 x.2 ∧ Covers w (Pending program w x) x.1.levels chain

def Routine.Fits (r : Routine) : Prop := ∃ Δ, Situated programs w r.closure (Δ, .lambda r.definition)

/-- A routine on the chain of its class, which is that of its definition but for the object. -/
def Routine.FitsObject (r : Routine) : Prop :=
  ∃ program ∈ programs, ∃ Δ l ls, Δ.levels = l :: ls ∧ l.seen = ⟨[(selfName, true)]⟩ ∧
    Occurs program Δ (.lambda r.definition) ∧
    Covers w (Pending program w (Δ, .lambda r.definition)) ls r.closure

def Class.Fits (c : Class) : Prop := ∀ name r, c.methods.find? name = some r → r.FitsObject programs w

inductive Value.Fits : Value → Prop
  | nil : Value.Fits .nil
  | bool (b : Bool) : Value.Fits (.bool b)
  | number (x : Float) : Value.Fits (.number x)
  | text (s : String) : Value.Fits (.text s)
  | list (id : Nat) : Value.Fits (.list id)
  | native (n : Native) : Value.Fits (.native n)
  | function (id : Nat) {r : Routine} (hr : r.Fits programs w) : Value.Fits (.function id r)
  | classDef (id : Nat) {c : Class} (hc : c.Fits programs w) : Value.Fits (.classDef id c)
  | object (id : Nat) {c : Class} (hc : c.Fits programs w) : Value.Fits (.object id c)

end fits

section mono

variable {programs : List (List Stmt)} {w v : World}

theorem Situated.mono {chain : Chain} {x : Context × Node} (h : Situated programs w chain x) (hv : w.Later v) :
    Situated programs v chain x := by
  obtain ⟨program, hprogram, ho, hcovers⟩ := h
  exact ⟨program, hprogram, ho, hcovers.mono hv fun hp => hp.mono hv .refl⟩

theorem Situated.child {chain : Chain} {Δ Γ : Context} {j k : Node} (h : Situated programs w chain (Δ, j))
    (hk : (Γ, k) ∈ j.children Δ) (hsame : Γ.levels = Δ.levels) : Situated programs w chain (Γ, k) := by
  obtain ⟨program, hprogram, ho, hcovers⟩ := h
  refine ⟨program, hprogram, ho.child hk, ?_⟩
  change Covers w _ Γ.levels chain
  rw [hsame]
  exact hcovers.mono (.refl w) fun hp => hp.mono (.refl w) (.single hk)

theorem Routine.FitsObject.mono {r : Routine} (h : r.FitsObject programs w) (hv : w.Later v) :
    r.FitsObject programs v := by
  obtain ⟨program, hprogram, Δ, l, ls, hlevels, hseen, ho, hcovers⟩ := h
  exact ⟨program, hprogram, Δ, l, ls, hlevels, hseen, ho, hcovers.mono hv fun hp => hp.mono hv .refl⟩

theorem Routine.FitsObject.bind {r : Routine} (h : r.FitsObject programs w) {f : Nat} (hf : f < w.frames.size)
    (hself : w.Holds f selfName) : Routine.Fits programs w { r with closure := .link f r.closure } := by
  obtain ⟨program, hprogram, Δ, l, ls, hlevels, hseen, ho, hcovers⟩ := h
  refine ⟨Δ, program, hprogram, ho, ?_⟩
  change Covers w _ Δ.levels (.link f r.closure)
  rw [hlevels]
  have hsingle : ∀ name complete, l.seen.find? name = some complete → name = selfName ∧ complete = true := by
    intro name complete hfind
    rw [hseen] at hfind
    by_cases hname : name = selfName
    · subst hname
      exact ⟨rfl, (Option.some.inj hfind).symm⟩
    · simp [Bindings.find?, List.lookup_cons, beq_eq_false_iff_ne.2 hname] at hfind
  refine .link hf (fun name hfind => ?_) (fun name hfind => ?_) hcovers
  · obtain ⟨rfl, -⟩ := hsingle name _ hfind
    exact hself
  · cases (hsingle name _ hfind).2

theorem Class.Fits.mono {c : Class} (h : c.Fits programs w) (hv : w.Later v) : c.Fits programs v :=
  fun name r hr => (h name r hr).mono hv

theorem Value.Fits.mono {a : Value} (h : a.Fits programs w) (hv : w.Later v) : a.Fits programs v := by
  cases h with
  | function id hr => exact .function id (hr.imp fun _ h => h.mono hv)
  | classDef id hc => exact .classDef id (hc.mono hv)
  | object id hc => exact .object id (hc.mono hv)
  | nil => exact .nil
  | bool b => exact .bool b
  | number x => exact .number x
  | text s => exact .text s
  | list id => exact .list id
  | native n => exact .native n

end mono

end LoxLang
