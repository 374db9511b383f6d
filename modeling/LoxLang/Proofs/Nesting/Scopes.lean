import LoxLang.Proofs.Tree.Binding
import LoxLang.Proofs.Tree.Edit
import LoxLang.Proofs.Tree.Initializer

namespace LoxLang

/-- A scope around a place of the second program: one of the first program too, or a further one. -/
inductive Layer where
  | shared | further
deriving DecidableEq

/-- How far out in the second program is what is so far out in the first. -/
def past : List Layer → Nat → Nat
  | [], d => d
  | .further :: Γ, d => past Γ d + 1
  | .shared :: _, 0 => 0
  | .shared :: Γ, d + 1 => past Γ d + 1

/-- The second scopes are the first with further ones, which declare nothing, where the names of the scope around
are complete. -/
inductive Widened : List Layer → List (Bindings Bool) → List (Bindings Bool) → Prop
  | nil : Widened [] [] []
  | shared {Γ : List Layer} {l l' : List (Bindings Bool)} (b : Bindings Bool) (h : Widened Γ l l') :
    Widened (.shared :: Γ) (b :: l) (b :: l')
  | further {Γ : List Layer} {l l' : List (Bindings Bool)}
    (hcomplete : ∀ b ∈ l.head?, ∀ name, b.find? name ≠ some false) (h : Widened Γ l l') :
    Widened (.further :: Γ) l (⟨[]⟩ :: l')

namespace Widened

variable {Γ : List Layer} {l l' : List (Bindings Bool)}

theorem outward? (h : Widened Γ l l') (name : String) :
    Scopes.outward? name l' = (Scopes.outward? name l).map (past Γ) := by
  induction h with
  | nil => rfl
  | shared b h ih =>
    rw [Scopes.outward?, Scopes.outward?, ih]
    cases b.contains name with
    | true => rfl
    | false => simp [past, Function.comp_def]
  | further _ h ih =>
    rw [Scopes.outward?, ih]
    simp [past, Function.comp_def]

theorem hops?_eq_outward? (hcomplete : ∀ b ∈ l.head?, ∀ name, b.find? name ≠ some false) (name : String) :
    Scopes.hops? name l = Scopes.outward? name l := by
  cases l with
  | nil => rfl
  | cons b l =>
    have hb := hcomplete b rfl name
    rw [Scopes.hops?, Scopes.outward?, Bindings.contains]
    cases hfound : b.find? name with
    | none => rfl
    | some complete =>
      cases complete with
      | true => rfl
      | false => exact absurd hfound hb

theorem hops? (h : Widened Γ l l') (name : String) :
    Scopes.hops? name l' = (Scopes.hops? name l).map (past Γ) := by
  cases h with
  | nil => rfl
  | shared b h =>
    rw [Scopes.hops?, Scopes.hops?, h.outward?]
    by_cases hb : b.find? name = some true
    · simp [hb, past]
    · simp [hb, past, Function.comp_def]
  | further hcomplete h =>
    rw [hops?_eq_outward? hcomplete, Scopes.hops?, h.outward?]
    simp [past, Function.comp_def]

end Widened

structure Beside (Γ : List Layer) (Δ Δ' : Context) : Prop where
  here : Δ'.here = Δ.here
  seen : Widened Γ Δ.seen Δ'.seen

namespace Beside

variable {Γ : List Layer} {Δ Δ' : Context}

theorem enter (h : Beside Γ Δ Δ') (scope scope' : Scope) (b : Bindings Bool) :
    Beside (.shared :: Γ) (Δ.enter scope b) (Δ'.enter scope' b) := ⟨h.here, .shared b h.seen⟩

theorem enter_further (h : Beside Γ Δ Δ') (hΔ : Δ.Settled) (scope : Scope) :
    Beside (.further :: Γ) Δ (Δ'.enter scope ⟨[]⟩) := by
  refine ⟨h.here, .further (fun b hb => ?_) h.seen⟩
  rw [Context.seen, List.head?_map] at hb
  obtain ⟨l, hl, rfl⟩ := Option.map_eq_some_iff.1 hb
  exact hΔ l hl

theorem withRole (h : Beside Γ Δ Δ') (role : Role) : Beside Γ (Δ.withRole role) (Δ'.withRole role) :=
  ⟨by simp [Context.withRole, h.here], h.seen⟩

theorem withLoop (h : Beside Γ Δ Δ') (inLoop : Bool) : Beside Γ (Δ.withLoop inLoop) (Δ'.withLoop inLoop) :=
  ⟨by simp [Context.withLoop, h.here], h.seen⟩

theorem withClass (h : Beside Γ Δ Δ') : Beside Γ Δ.withClass Δ'.withClass :=
  ⟨by simp [Context.withClass, h.here], h.seen⟩

theorem put (h : Beside Γ Δ Δ') (hΓ : Γ.head? ≠ some .further) (name : String) (complete : Bool) :
    Beside Γ (Δ.put name complete) (Δ'.put name complete) := by
  refine ⟨by simp [h.here], ?_⟩
  rw [Context.seen_put, Context.seen_put]
  have hseen := h.seen
  generalize Δ.seen = l at hseen ⊢
  generalize Δ'.seen = l' at hseen ⊢
  cases hseen with
  | nil => exact .nil
  | shared b hl => exact .shared _ hl
  | further => exact absurd rfl hΓ

theorem after (h : Beside Γ Δ Δ') {t t' : Stmt} (hdeclares : t'.declares = t.declares)
    (ht : Γ.head? = some .further → t.declares = []) : Beside Γ (t.after Δ) (t'.after Δ') := by
  rw [Context.after_congr hdeclares]
  by_cases hΓ : Γ.head? = some .further
  · simpa [Stmt.after, ht hΓ] using h
  · unfold Stmt.after
    cases t with
    | varDecl name _ | funDecl name _ | classDecl name _ => exact h.put hΓ name.lexeme true
    | _ => exact h

theorem free_iff (h : Beside Γ Δ Δ') (hΓ : Γ.head? ≠ some .further) (name : String) :
    Δ'.Free name ↔ Δ.Free name := by
  rw [Context.free_iff_seen, Context.free_iff_seen]
  have hseen := h.seen
  generalize Δ.seen = l at hseen ⊢
  generalize Δ'.seen = l' at hseen ⊢
  cases hseen with
  | nil | shared => rfl
  | further => exact absurd rfl hΓ

theorem levels_ne_nil (h : Beside Γ Δ Δ') (hΓ : Γ.head? ≠ some .further) : Δ'.levels ≠ [] ↔ Δ.levels ≠ [] := by
  have hlevels : ∀ Δ : Context, Δ.levels ≠ [] ↔ Δ.seen ≠ [] := by simp [Context.seen]
  rw [hlevels, hlevels]
  have hseen := h.seen
  generalize Δ.seen = l at hseen ⊢
  generalize Δ'.seen = l' at hseen ⊢
  cases hseen with
  | nil => rfl
  | shared => simp
  | further => exact absurd rfl hΓ

end Beside

/-- The new nodes are statements for statements, and declare what was declared. -/
def StatementRule (new : Node → Node → Prop) : Prop :=
  ∀ j k, new j k → ∃ t u, j = .stmt t ∧ k = .stmt u ∧ u.declares = t.declares

namespace Node

variable {new : Node → Node → Prop}

theorem Recast.declares (hnew : StatementRule new) {t u : Stmt} (h : Recast new (.stmt t) (.stmt u)) :
    u.declares = t.declares := by
  obtain h | ⟨h, -⟩ := h.parts
  · obtain ⟨_, _, ht, hu, hdeclares⟩ := hnew _ _ h
    cases ht
    cases hu
    exact hdeclares
  · exact h.declares

theorem Recast.bare? (hnew : StatementRule new) {e d : Expr} (h : Recast new (.expr e) (.expr d)) :
    d.bare? = e.bare? := by
  unfold Expr.bare?
  induction e using Expr.ungroup.induct generalizing d with
  | case1 e ih =>
    obtain h | ⟨halike, hparts⟩ := h.parts
    · obtain ⟨_, _, ht, -⟩ := hnew _ _ h
      cases ht
    · cases halike with
      | group _ d =>
        exact ih (d := d) (by simpa [Node.parts, Node.children] using hparts)
  | case2 e hgroup =>
    obtain h | ⟨halike, -⟩ := h.parts
    · obtain ⟨_, _, ht, -⟩ := hnew _ _ h
      cases ht
    · cases halike with
      | group => exact absurd rfl (hgroup _)
      | _ => rfl

def inner (Γ : List Layer) : Node → List Layer
  | .lambda _ | .stmt (.block _) | .stmt (.classDecl _ _) => .shared :: Γ
  | _ => Γ

end Node

open Node

/-- Nodes of the two programs, in their contexts. No statement that declares something stands right in a further
scope. -/
structure Related (new : Node → Node → Prop) (Γ : List Layer) (x x' : Context × Node) : Prop where
  beside : Beside Γ x.1 x'.1
  recast : Recast new x.2 x'.2
  settled : ∀ t, x.2 = .stmt t → x.1.Settled
  declares : ∀ t, x.2 = .stmt t → Γ.head? = some .further → t.declares = []

namespace Related

variable {new : Node → Node → Prop} {Γ : List Layer} {Δ Δ' : Context}

theorem expr {e e' : Expr} (hb : Beside Γ Δ Δ') (h : Recast new (.expr e) (.expr e')) :
    Related new Γ (Δ, .expr e) (Δ', .expr e') := ⟨hb, h, by simp, by simp⟩

theorem lambda {f f' : Lambda} (hb : Beside Γ Δ Δ') (h : Recast new (.lambda f) (.lambda f')) :
    Related new Γ (Δ, .lambda f) (Δ', .lambda f') := ⟨hb, h, by simp, by simp⟩

theorem branch {t t' : Stmt} (hb : Beside Γ Δ Δ') (h : Recast new (.stmt t) (.stmt t')) (hΔ : Δ.Settled)
    (ht : t.declares = []) : Related new Γ (Δ, .stmt t) (Δ', .stmt t') :=
  ⟨hb, h, fun _ _ => hΔ, fun _ hu _ => Node.stmt.inj hu ▸ ht⟩

theorem head_ne_further {x x' : Context × Node} (h : Related new Γ x x') {t : Stmt} {name : String}
    (hx : x.2 = .stmt t) (ht : t.declares = [name]) : Γ.head? ≠ some .further := by
  intro hΓ
  rw [h.declares t hx hΓ] at ht
  cases ht

theorem sequence (hnew : StatementRule new) {ss ss' : List Stmt} (hb : Beside Γ Δ Δ') (hΔ : Δ.Settled)
    (hΓ : Γ.head? ≠ some .further) (h : List.Forall₂ (fun t u => Recast new (.stmt t) (.stmt u)) ss ss') :
    List.Forall₂ (Related new Γ) (Δ.sequence ss) (Δ'.sequence ss') := by
  induction h generalizing Δ Δ' with
  | nil => exact .nil
  | @cons t u _ _ ht _ ih =>
    exact .cons ⟨hb, ht, fun _ _ => hΔ, fun _ _ h => absurd h hΓ⟩
      (ih (hb.after (ht.declares hnew) fun h => absurd h hΓ) (hΔ.after t))

theorem methods {ms ms' : List Method} (hb : Beside Γ Δ Δ') (hnames : ms'.map Method.name = ms.map Method.name)
    (h : List.Forall₂ (fun m m' => Recast new (.lambda m.definition) (.lambda m'.definition)) ms ms') :
    List.Forall₂ (fun m m' => Related new Γ (Δ.withRole m.role, .lambda m.definition)
      (Δ'.withRole m'.role, .lambda m'.definition)) ms ms' := by
  induction h with
  | nil => exact .nil
  | cons hm _ ih =>
    simp only [List.map_cons, List.cons.injEq] at hnames
    refine .cons ?_ (ih hnames.2)
    simp only [Method.role, hnames.1]
    exact .lambda (hb.withRole _) hm

theorem children (hnew : StatementRule new) {j j' : Node} (h : Related new Γ (Δ, j) (Δ', j')) (hj : j.Common)
    (halike : j.Alike j') (hparts : List.Forall₂ (Recast new) j.parts j'.parts) :
    List.Forall₂ (Related new (j.inner Γ)) (j.children Δ) (j'.children Δ') := by
  have hb : Beside Γ Δ Δ' := h.beside
  simp only [Node.inner]
  cases halike <;> simp only [parts, Node.children, List.map_cons, List.map_nil, List.map_map, Function.comp_def,
    Context.sequence_snd, List.forall₂_cons, List.forall₂_nil_right_iff, and_true, List.forall₂_map_left_iff,
    List.forall₂_map_right_iff] at hparts ⊢
  case ofStmt | ofExpr => exact hj.elim
  case assign | group | unary | property | expression | print | ret => exact .expr hb hparts
  case binary | logical | setProperty => exact ⟨.expr hb hparts.1, .expr hb hparts.2⟩
  case ternary => exact ⟨.expr hb hparts.1, .expr hb hparts.2.1, .expr hb hparts.2.2⟩
  case call => exact ⟨.expr hb hparts.1, hparts.2.imp fun _ _ h => .expr hb h⟩
  case list => exact hparts.imp fun _ _ h => .expr hb h
  case function => exact .lambda (hb.withRole .function) hparts
  case lambda params body body' =>
    refine sequence hnew ((hb.enter _ _ _).withLoop false) (fun l hl name => ?_) (by simp) hparts
    obtain rfl := Option.some.inj hl
    rw [Context.paramsSeen_find?]
    split <;> simp
  case block ss ss' =>
    refine sequence hnew (hb.enter _ _ _) (fun l hl name => ?_) (by simp) hparts
    obtain rfl := Option.some.inj hl
    simp
  case varDecl name e e' => exact .expr (hb.put (h.head_ne_further rfl rfl) name.lexeme false) hparts
  case funDecl name f f' => exact .lambda ((hb.put (h.head_ne_further rfl rfl) name.lexeme true).withRole .function) hparts
  case classDecl name ms ms' hnames =>
    exact methods ((hb.put (h.head_ne_further rfl rfl) name.lexeme true).enter _ _ _).withClass hnames hparts
  case ifThen => exact ⟨.expr hb hparts.1, .branch hb hparts.2 (h.settled _ rfl) hj.1⟩
  case ifElse =>
    exact ⟨.expr hb hparts.1, .branch hb hparts.2.1 (h.settled _ rfl) hj.1,
      .branch hb hparts.2.2 (h.settled _ rfl) (hj.2 _ rfl)⟩
  case whileLoop => exact ⟨.expr hb hparts.1, .branch (hb.withLoop true) hparts.2 (h.settled _ rfl) hj.1⟩
  case forLoop =>
    exact ⟨.expr hb hparts.1, .branch (hb.withLoop true) hparts.2.1 (h.settled _ rfl) hj.1,
      .branch (hb.withLoop true) hparts.2.2 (h.settled _ rfl) (hj.2 _ rfl)⟩
theorem common (hnew : StatementRule new) {j j' : Node} (hj : j.Common) (halike : j.Alike j')
    (hparts : List.Forall₂ (Recast new) j.parts j'.parts) : j'.Common := by
  cases halike <;> simp only [parts, Node.children, List.map_cons, List.map_nil, List.forall₂_cons,
    List.forall₂_nil_right_iff, and_true] at hparts
  case ofStmt | stub | ofExpr => exact hj.elim
  case ifThen | whileLoop => exact ⟨(hparts.2.declares hnew).trans hj.1, by simp⟩
  case ifElse | forLoop =>
    refine ⟨(hparts.2.1.declares hnew).trans hj.1, fun t ht => ?_⟩
    obtain rfl := Option.some.inj ht
    exact (hparts.2.2.declares hnew).trans (hj.2 _ rfl)
  all_goals trivial

theorem allowed (hnew : StatementRule new) {j j' : Node} (h : Related new Γ (Δ, j) (Δ', j')) (hj : j.Allowed Δ)
    (halike : j.Alike j') (hparts : List.Forall₂ (Recast new) j.parts j'.parts) : j'.Allowed Δ' := by
  have hb : Beside Γ Δ Δ' := h.beside
  cases halike <;> simp only [Allowed, hb.here] at hj ⊢
  case lambda => exact hj
  case bareDecl | funDecl | classDecl => exact (hb.free_iff (h.head_ne_further rfl rfl) _).2 hj
  case varDecl name e e' =>
    simp only [parts, Node.children, List.map_cons, List.map_nil, List.forall₂_cons, List.forall₂_nil_right_iff,
      and_true] at hparts
    rw [hb.free_iff (h.head_ne_further rfl rfl), hb.levels_ne_nil (h.head_ne_further rfl rfl), hparts.bare? hnew]
    exact hj
  all_goals exact hj

/-- Throughout a node that is related to one that the static rules allow, they allow what stands there, counts
aside, if they do so below the new ones. -/
theorem throughout (hnew : StatementRule new) {x x' : Context × Node}
    (hspecial : ∀ {Γ y y'}, Related new Γ y y' → Resolved y.1 y.2 → new y.2 y'.2 →
      Throughout (fun Δ j => j.Common ∧ j.Allowed Δ) y')
    (h : Related new Γ x x') (hx : Resolved x.1 x.2) : Throughout (fun Δ j => j.Common ∧ j.Allowed Δ) x' := by
  let Good := Throughout fun Δ j => j.Common ∧ j.Allowed Δ
  have hstep : ∀ {Γ y y'}, Related new Γ y y' → Resolved y.1 y.2 → Good y' ∨ (y'.2.Common ∧ y'.2.Allowed y'.1) ∧
      List.Forall₂ (Related new (y.2.inner Γ)) (y.2.children y.1) (y'.2.children y'.1) := by
    intro Γ y y' hy hr
    obtain hn | ⟨halike, hparts⟩ := hy.recast.parts
    · exact .inl (hspecial hy hr hn)
    · obtain ⟨hregular, hlegal⟩ := hr _ .refl
      refine .inr ⟨⟨common hnew hregular.common halike hparts, ?_⟩, children hnew hy hregular.common halike hparts⟩
      exact allowed hnew hy ((Node.legal_iff _ _).1 hlegal).1 halike hparts
  have hbelow : ∀ y', Reaches x' y' → Good y' ∨ ∃ Γ y, Related new Γ y y' ∧ Resolved y.1 y.2 := by
    intro y' hy'
    induction hy' with
    | refl => exact .inr ⟨Γ, x, h, hx⟩
    | @tail y' z' _ hz' ih =>
      obtain hgood | ⟨Γ', y, hy, hr⟩ := ih
      · exact .inl fun u hu => hgood u (.head hz' hu)
      · obtain hgood | ⟨-, hchildren⟩ := hstep hy hr
        · exact .inl fun u hu => hgood u (.head hz' hu)
        · obtain ⟨z, hz, hrel⟩ := exists_of_mem_right hchildren hz'
          exact .inr ⟨_, z, hrel, ((resolved_iff _ _).1 hr).2 z hz⟩
  intro y' hy'
  obtain hgood | ⟨Γ', y, hy, hr⟩ := hbelow y' hy'
  · exact hgood y' .refl
  · obtain hgood | ⟨hgood, -⟩ := hstep hy hr
    · exact hgood y' .refl
    · exact hgood

theorem throughout_same {x x' : Context × Node} (h : Related (fun _ _ => False) Γ x x') (hx : Resolved x.1 x.2) :
    Throughout (fun Δ j => j.Common ∧ j.Allowed Δ) x' :=
  h.throughout (fun _ _ h => h.elim) (fun _ _ h => h.elim) hx

end Related

end LoxLang
