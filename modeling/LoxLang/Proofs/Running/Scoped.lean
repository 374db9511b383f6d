import LoxLang.Proofs.Running.Lockstep
import LoxLang.Proofs.Tree.Resolution

namespace LoxLang

theorem Context.exists_mem_sequence (Δ : Context) {ss : List Stmt} {t : Stmt} (ht : t ∈ ss) :
    ∃ Δ' : Context, (Δ', Node.stmt t) ∈ Δ.sequence ss ∧ Δ'.scopes = Δ.scopes := by
  induction ss generalizing Δ with
  | nil => cases ht
  | cons u us ih =>
    obtain rfl | ht := List.mem_cons.1 ht
    · exact ⟨Δ, by simp [Context.sequence], rfl⟩
    · obtain ⟨Δ', hmem, hscopes⟩ := ih (u.after Δ) ht
      exact ⟨Δ', by simp [Context.sequence, hmem], by simpa using hscopes⟩

namespace Scopes

theorem outward?_spec {name : String} {levels : List (Bindings Bool)} {d : Nat}
    (h : outward? name levels = some d) : ∃ b, levels[d]? = some b ∧ b.contains name = true := by
  induction levels generalizing d with
  | nil => cases h
  | cons b bs ih =>
    rw [outward?] at h
    by_cases hb : b.contains name = true
    · simp only [hb, if_true, Option.some.injEq] at h
      exact ⟨b, by simp [← h], hb⟩
    · simp only [hb, Bool.false_eq_true, if_false, Option.map_eq_some_iff] at h
      obtain ⟨e, he, rfl⟩ := h
      exact ih he

theorem hops?_spec {name : String} {levels : List (Bindings Bool)} {d : Nat}
    (h : hops? name levels = some d) : ∃ b, levels[d]? = some b ∧ b.contains name = true := by
  obtain _ | ⟨b, bs⟩ := levels
  · cases h
  · rw [hops?] at h
    by_cases hb : b.find? name = some true
    · simp only [hb, if_true, Option.some.injEq] at h
      exact ⟨b, by simp [← h], by simp [Bindings.contains, hb]⟩
    · simp only [hb, if_false, Option.map_eq_some_iff] at h
      obtain ⟨e, he, rfl⟩ := h
      have houter := outward?_spec he
      exact houter

end Scopes

theorem Occurs.hops_level {program : List Stmt} (h : ResolvedProgram program) {Δ : Context} {j : Node}
    (ho : Occurs program Δ j) {name : String} {d : Nat} (hd : Scopes.hops? name Δ.seen = some d) :
    ∃ l, Δ.levels[d]? = some l ∧ name ∈ l.scope.names := by
  obtain ⟨b, hb, hname⟩ := Scopes.hops?_spec hd
  rw [Context.seen, List.getElem?_map, Option.map_eq_some_iff] at hb
  obtain ⟨l, hl, rfl⟩ := hb
  exact ⟨l, hl, (ho.grounded h).faithful l (List.mem_of_getElem? hl) name hname⟩

/-- The names that a frame of a scope may hold, which for the frame of the globals are given. -/
def Scope.mayHold (globalNames : String → Prop) : Option Scope → String → Prop
  | none, name => globalNames name
  | some scope, name => name ∈ scope.names

def scopeLabelling (globalNames : String → Prop) (h : ∀ n : Native, globalNames n.name) : Labelling where
  Label := Option Scope
  top := none
  holds := Scope.mayHold globalNames
  rename _ name := name
  rename_injective _ _ _ h := h
  rename_self _ := rfl
  rename_top _ := rfl
  holds_native := h

def Context.labels (Δ : Context) : List (Option Scope) := Δ.scopes.map some

theorem Context.length_labels (Δ : Context) : Δ.labels.length = Δ.levels.length := by
  simp [labels, scopes]

theorem Context.labels_drop_head {Δ : Context} {d : Nat} {l : Level} (hl : Δ.levels[d]? = some l) :
    (Δ.labels.drop d).headD none = some l.scope := by
  simp [labels, scopes, List.headD_eq_head?_getD, List.head?_drop, hl]

theorem Context.labels_put (Δ : Context) (name : String) (complete : Bool) :
    (Δ.put name complete).labels = Δ.labels := by
  simp [labels]

/-- A node of one of the programs with itself, inside frames of the scopes around it. -/
def Placed (programs : List (List Stmt)) (Γ : List (Option Scope)) (j j' : Node) : Prop :=
  j' = j ∧ ∃ program ∈ programs, ∃ Δ, Occurs program Δ j ∧ Γ = Δ.labels

section placed

variable {programs : List (List Stmt)} {globalNames : String → Prop} {program : List Stmt} {Δ : Context}

theorem Placed.child (Δ' : Context) {j k : Node} {Γ : List (Option Scope)} (hp : program ∈ programs)
    (ho : Occurs program Δ j) (hk : (Δ', k) ∈ j.children Δ) (hΓ : Γ = Δ'.labels := by rfl) :
    Placed programs Γ k k :=
  ⟨rfl, program, hp, Δ', ho.child hk, hΓ⟩

theorem Placed.itself (hp : program ∈ programs) :
    List.Forall₂ (fun t t' => Placed programs [] (.stmt t) (.stmt t')) program program := by
  apply List.forall₂_same.2
  intro t ht
  obtain ⟨Δ, hmem, hscopes⟩ := Context.exists_mem_sequence {} ht
  exact ⟨rfl, program, hp, Δ, .top hmem, by rw [Context.labels, hscopes]; rfl⟩

theorem Scope.mayHold_of_names (hglobal : ∀ name ∈ declaredNames program, globalNames name)
    {name : String} (h : name ∈ Δ.names program) : Scope.mayHold globalNames (Δ.labels.headD none) name := by
  obtain ⟨_ | ⟨l, ls⟩, here⟩ := Δ
  · exact hglobal name h
  · exact h

theorem Placed.sequence (Δ' : Context) {j : Node} {ss : List Stmt} {Γ : List (Option Scope)}
    (hp : program ∈ programs) (ho : Occurs program Δ j) (hss : ∀ x ∈ Δ'.sequence ss, x ∈ j.children Δ)
    (hΓ : Γ = Δ'.labels := by rfl) :
    List.Forall₂ (fun t t' => Placed programs Γ (.stmt t) (.stmt t')) ss ss := by
  apply List.forall₂_same.2
  intro t ht
  obtain ⟨Δ'', hmem, hscopes⟩ := Δ'.exists_mem_sequence ht
  exact .child Δ'' hp ho (hss _ hmem) (by rw [hΓ, Context.labels, Context.labels, hscopes])

variable (hresolved : ∀ program ∈ programs, ResolvedProgram program)
  (hglobal : ∀ program ∈ programs, ∀ name ∈ declaredNames program, globalNames name)
  {hnative : ∀ n : Native, globalNames n.name}

include hresolved hglobal

theorem Placed.alike {Γ : List (Option Scope)} {j j' : Node} (h : Placed programs Γ j j') :
    (scopeLabelling globalNames hnative).Alike (Placed programs) Γ j j' := by
  obtain ⟨rfl, program, hp, Δ, ho, rfl⟩ := h
  have hregular := (ho.legal (hresolved program hp)).1
  have hgrounded := ho.grounded (hresolved program hp)
  cases j' with
  | expr e =>
    cases e with
    | literal v => exact .literal v
    | ref name hops => exact .ref name name hops hops
    | self keyword hops => exact .self keyword keyword hops hops
    | assign name hops e => exact .assign name name hops hops (.child Δ hp ho (by simp [Node.children]))
    | group e => exact .group (.child Δ hp ho (by simp [Node.children]))
    | unary op e => exact .unary op (.child Δ hp ho (by simp [Node.children]))
    | binary l op r =>
      exact .binary op (.child Δ hp ho (by simp [Node.children])) (.child Δ hp ho (by simp [Node.children]))
    | logical l op r =>
      exact .logical op (.child Δ hp ho (by simp [Node.children])) (.child Δ hp ho (by simp [Node.children]))
    | ternary c y n line =>
      exact .ternary line (.child Δ hp ho (by simp [Node.children]))
        (.child Δ hp ho (by simp [Node.children])) (.child Δ hp ho (by simp [Node.children]))
    | call f paren es =>
      exact .call paren (.child Δ hp ho (by simp [Node.children]))
        (List.forall₂_same.2 fun e he => .child Δ hp ho (by simp [Node.children, he]))
    | property o name => exact .property name (.child Δ hp ho (by simp [Node.children]))
    | setProperty o name v =>
      exact .setProperty name (.child Δ hp ho (by simp [Node.children]))
        (.child Δ hp ho (by simp [Node.children]))
    | function f =>
      exact .function (Placed.child (Δ.withRole .function) hp ho (by simp [Node.children]))
    | list es => exact .list (List.forall₂_same.2 fun e he => .child Δ hp ho (by simp [Node.children, he]))
    | ofStmt t => exact hregular.elim
    | stub s => exact hregular.elim
  | lambda f =>
    refine .lambda (some (.function f)) ?_ ?_
    · apply List.forall₂_same.2
      intro p hp
      exact ⟨rfl, List.mem_append_left _ (List.mem_map_of_mem hp)⟩
    · exact Placed.sequence ((Δ.enter (.function f) (paramsSeen f.params)).withLoop false) hp ho fun x hx => hx
  | stmt t =>
    have hname : ∀ name ∈ t.declares, Scope.mayHold globalNames (Δ.labels.headD none) name :=
      fun name hn => Scope.mayHold_of_names (hglobal program hp) (hgrounded.2 name hn)
    cases t with
    | expression e => exact .expression (.child Δ hp ho (by simp [Node.children]))
    | print e => exact .print (.child Δ hp ho (by simp [Node.children]))
    | varDecl name initial =>
      refine .varDecl ⟨rfl, hname _ (by simp [Stmt.declares])⟩ ?_
      cases initial with
      | none => exact .none
      | some e =>
        exact .some (.child (Δ.put name.lexeme false) hp ho (by simp [Node.children])
          (Δ.labels_put _ _).symm)
    | funDecl name f =>
      refine .funDecl ⟨⟨rfl, hname _ (by simp [Stmt.declares])⟩, rfl⟩ ?_
      exact .child ((Δ.put name.lexeme true).withRole .function) hp ho (by simp [Node.children])
        (Δ.labels_put _ _).symm
    | classDecl name ms =>
      refine .classDecl ⟨⟨rfl, hname _ (by simp [Stmt.declares])⟩, rfl⟩ ?_
      apply List.forall₂_same.2
      intro m hm
      refine ⟨rfl, some (.object ms), List.mem_singleton.2 rfl, ?_⟩
      exact .child ((((Δ.put name.lexeme true).enter (.object ms) ⟨[(selfName, true)]⟩).withClass).withRole
        m.role) hp ho (List.mem_map_of_mem hm) (congrArg (some (.object ms) :: ·) (Δ.labels_put _ _).symm)
    | block ss =>
      exact .block (some (.block ss)) (Placed.sequence (Δ.enter (.block ss) ⟨[]⟩) hp ho fun x hx => hx)
    | ifThen c y no =>
      cases no with
      | none =>
        exact .ifThen (.child Δ hp ho (by simp [Node.children])) (.child Δ hp ho (by simp [Node.children]))
          .none
      | some n =>
        exact .ifThen (.child Δ hp ho (by simp [Node.children])) (.child Δ hp ho (by simp [Node.children]))
          (.some (.child Δ hp ho (by simp [Node.children])))
    | whileLoop c b step =>
      cases step with
      | none =>
        exact .whileLoop (.child Δ hp ho (by simp [Node.children]))
          (.child (Δ.withLoop true) hp ho (by simp [Node.children])) .none
      | some s =>
        exact .whileLoop (.child Δ hp ho (by simp [Node.children]))
          (.child (Δ.withLoop true) hp ho (by simp [Node.children]))
          (.some (.child (Δ.withLoop true) hp ho (by simp [Node.children])))
    | ret keyword value =>
      refine .ret keyword keyword ?_
      cases value with
      | none => exact .none
      | some e => exact .some (.child Δ hp ho (by simp [Node.children]))
    | breakLoop keyword => exact .breakLoop keyword keyword
    | continueLoop keyword => exact .continueLoop keyword keyword
    | ofExpr e => exact hregular.elim

end placed

end LoxLang
