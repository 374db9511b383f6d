import LoxLang.Proofs.Scoping.Rules
import LoxLang.Proofs.Tree.Binding

namespace LoxLang

def Stmt.complete : Stmt → Bool
  | .varDecl _ (some _) => false
  | _ => true

theorem Stmt.complete_eq_false {t : Stmt} : t.complete = false ↔ t.Initial := by
  cases t with
  | varDecl name initial => cases initial <;> simp [complete, Initial]
  | _ => simp [complete, Initial]

namespace Enclosing

variable {s : Enclosing} {b : Bindings Bool} {t : Stmt} {inside : Bool} {name : String}

def around? (s : Enclosing) : Option Stmt := s.body[s.index]?

def before (s : Enclosing) : List String := s.names ++ declaredNames (s.body.take s.index)

def here (s : Enclosing) : List String := (s.around?.map Stmt.declares).getD []

/-- What the scope tells of a name, in front of the statement or inside it. -/
def shown? (s : Enclosing) (inside : Bool) (name : String) : Option Bool :=
  if inside = true ∧ name ∈ s.here then s.around?.map Stmt.complete
  else if name ∈ s.before then some true else none

def Shows (inside : Bool) (b : Bindings Bool) (s : Enclosing) : Prop := ∀ name, b.find? name = s.shown? inside name

theorem Shows.still (h : Shows false b s) (hhere : s.here = []) : Shows inside b s := by
  intro name
  rw [h name, shown?, shown?, hhere]
  simp

theorem Shows.put {n : String} (h : Shows false b s) (ht : s.around? = some t) (hn : t.declares = [n]) :
    Shows true (b.put n t.complete) s := by
  intro name
  have hhere : s.here = [n] := by rw [here, ht, Option.map_some, Option.getD_some, hn]
  rw [Bindings.find?_put, h name, shown?, shown?, hhere, ht]
  by_cases hname : name = n <;> simp [hname]

theorem find?_afterAll (ss : List Stmt) {Δ : Context} {l : List (Bindings Bool)} (h : Δ.seen = b :: l) :
    ∃ top, (Δ.afterAll ss).seen = top :: l ∧
      ∀ name, top.find? name = if name ∈ declaredNames ss then some true else b.find? name := by
  induction ss generalizing Δ b with
  | nil => exact ⟨b, h, fun name => by simp [declaredNames]⟩
  | cons t ts ih =>
    have hafter : ∃ c, (t.after Δ).seen = c :: l ∧
        ∀ name, c.find? name = if name ∈ t.declares then some true else b.find? name := by
      cases t with
      | varDecl n _ | funDecl n _ | classDecl n _ =>
        refine ⟨b.put n.lexeme true, ?_, fun name => ?_⟩
        · simp [Stmt.after, Stmt.declares, Context.seen_put, h]
        · simp [Stmt.declares, Bindings.find?_put]
      | _ => exact ⟨b, h, fun name => by simp [Stmt.declares]⟩
    obtain ⟨c, hc, hfind⟩ := hafter
    obtain ⟨top, htop, hall⟩ := ih hc
    refine ⟨top, htop, fun name => ?_⟩
    have hmem : name ∈ declaredNames (t :: ts) ↔ name ∈ t.declares ∨ name ∈ declaredNames ts := by
      rw [declaredNames, List.flatMap_cons, List.mem_append, ← declaredNames]
    rw [hall, hfind]
    by_cases hts : name ∈ declaredNames ts <;> simp [hmem, hts]

/-- Bindings for the scopes around a place, from the innermost outward. A place lies inside a statement of
each scope but the innermost. -/
inductive Seen : Bool → List (Bindings Bool) → List Enclosing → Prop
  | nil {inside : Bool} : Seen inside [] []
  | cons {inside : Bool} {b : Bindings Bool} {s : Enclosing} {bs : List (Bindings Bool)} {ss : List Enclosing}
    (hb : Shows inside b s) (hbs : Seen true bs ss) : Seen inside (b :: bs) (s :: ss)

variable {bs : List (Bindings Bool)} {ss : List Enclosing}

theorem Seen.still (h : Seen false bs ss) (hhere : ∀ s ∈ ss.head?, s.here = []) : Seen inside bs ss := by
  cases h with
  | nil => exact .nil
  | cons hb hbs => exact .cons (hb.still (hhere _ rfl)) hbs

theorem Seen.put {Δ : Context} {n : String} (h : Seen false Δ.seen ss) (ht : ∀ s ∈ ss.head?, s.around? = some t)
    (hn : t.declares = [n]) : Seen true (Δ.put n t.complete).seen ss := by
  rw [Context.seen_put]
  generalize Δ.seen = bs at h ⊢
  cases h with
  | nil => exact .nil
  | cons hb hbs => exact .cons (hb.put (ht _ rfl) hn) hbs

theorem Seen.afterAll {Δ : Context} (h : Seen true bs ss) (hΔ : Δ.seen = b :: bs)
    (hb : ∀ name, b.find? name = if name ∈ s.names then some true else none) :
    Seen false (Δ.afterAll (s.body.take s.index)).seen (s :: ss) := by
  obtain ⟨top, htop, hfind⟩ := find?_afterAll (s.body.take s.index) hΔ
  rw [htop]
  refine .cons (fun name => ?_) h
  rw [hfind, hb, shown?, before]
  by_cases hname : name ∈ s.names <;> simp [hname]

end Enclosing

theorem Context.getElem?_sequence {Δ Γ : Context} {ss : List Stmt} {i : Nat} {k : Node}
    (h : (Δ.sequence ss)[i]? = some (Γ, k)) : ∃ t, ss[i]? = some t ∧ k = .stmt t ∧ Γ = Δ.afterAll (ss.take i) := by
  induction ss generalizing Δ i with
  | nil => cases h
  | cons t ts ih =>
    cases i with
    | zero =>
      obtain ⟨rfl, rfl⟩ := Prod.mk.inj (Option.some.inj h)
      exact ⟨t, rfl, rfl, rfl⟩
    | succ i => exact ih h

theorem Context.here_afterAll (Δ : Context) (ss : List Stmt) : (Δ.afterAll ss).here = Δ.here := by
  induction ss generalizing Δ with
  | nil => rfl
  | cons t ts ih => rw [afterAll, List.foldl_cons, ← afterAll, ih, here_after]

def roleOf : List (Node × Nat) → Role
  | (.stmt (.classDecl _ ms), k) :: _ => (ms[k]?.map Method.role).getD .function
  | _ => .function

def roleOn : List (Node × Nat) → Role
  | [] => .none
  | (.lambda _, _) :: outer => roleOf outer
  | (.expr _, _) :: outer | (.stmt _, _) :: outer => roleOn outer

theorem inClass_cons {j : Node} {i : Nat} {path : List (Node × Nat)} :
    InClass ((j, i) :: path) ↔ (∃ name ms, j = .stmt (.classDecl name ms)) ∨ InClass path := by
  simp only [InClass, List.mem_cons, Prod.mk.injEq]
  constructor
  · rintro ⟨name, ms, k, ⟨rfl, -⟩ | h⟩
    · exact .inl ⟨name, ms, rfl⟩
    · exact .inr ⟨name, ms, k, h⟩
  · rintro (⟨name, ms, rfl⟩ | ⟨name, ms, k, h⟩)
    · exact ⟨name, ms, i, .inl ⟨rfl, rfl⟩⟩
    · exact ⟨name, ms, k, .inr h⟩

def Node.inside : Node → Bool
  | .stmt _ => false
  | _ => true

/-- A node in its context stands at the inner end of a path. -/
structure Stands (Δ : Context) (j : Node) (path : List (Node × Nat)) : Prop where
  role : Δ.here.role = roleOn ((j, 0) :: path)
  inClass : Δ.here.inClass = true ↔ InClass path
  seen : Enclosing.Seen j.inside Δ.seen (scopesOn path)
  /-- A statement that declares a name is the one of its scope in which it lies. -/
  declares : ∀ t, j = .stmt t → ∀ s ∈ (scopesOn path).head?, s.around? = some t ∨ t.declares = [] ∧ s.here = []

namespace Stands

variable {Δ Γ : Context} {j k : Node} {path : List (Node × Nat)} {i : Nat}

theorem top {program : List Stmt} (h : (Context.sequence {} program)[i]? = some (Δ, j)) : Stands Δ j [] := by
  obtain ⟨t, -, rfl, rfl⟩ := Context.getElem?_sequence h
  have hseen : ∀ ss : List Stmt, (Context.afterAll {} ss).seen = [] := by
    intro ss
    induction ss with
    | nil => rfl
    | cons u us ih => cases u <;> exact ih
  refine ⟨by rw [Context.here_afterAll]; rfl, ?_, hseen _ ▸ .nil, fun _ _ s hs => nomatch hs⟩
  rw [Context.here_afterAll]
  simp [InClass]

section statement

variable {t : Stmt} (h : Stands Δ (.stmt t) path)

include h

theorem here_nil (ht : t.declares = []) : ∀ s ∈ (scopesOn path).head?, s.here = [] := by
  intro s hs
  obtain hs | hs := h.declares t rfl s hs
  · rw [Enclosing.here, hs, Option.map_some, Option.getD_some, ht]
  · exact hs.2

theorem around {n : String} (ht : t.declares = [n]) : ∀ s ∈ (scopesOn path).head?, s.around? = some t := by
  intro s hs
  obtain hs | hs := h.declares t rfl s hs
  · exact hs
  · cases ht.symm.trans hs.1

theorem seen_inside (ht : t.declares = []) : Enclosing.Seen true Δ.seen (scopesOn path) :=
  h.seen.still (h.here_nil ht)

theorem expr (ht : t.declares = []) (hscope : (Node.stmt t).scope? i = none) (e : Expr) :
    Stands Δ (.expr e) ((.stmt t, i) :: path) := by
  have hclass : ∀ name ms, t ≠ .classDecl name ms := by rintro name ms rfl; cases ht
  refine ⟨h.role, by simp [inClass_cons, hclass, h.inClass], ?_, fun _ he => by cases he⟩
  simpa [scopesOn, hscope, Node.inside] using h.seen_inside ht

theorem branch (hdecl : t.declares = []) (hscope : (Node.stmt t).scope? i = none) {u : Stmt} (hu : u.declares = [])
    (inLoop : Bool) : Stands (Δ.withLoop inLoop) (.stmt u) ((.stmt t, i) :: path) := by
  have hclass : ∀ name ms, t ≠ .classDecl name ms := by rintro name ms rfl; cases hdecl
  have hscopes : scopesOn ((Node.stmt t, i) :: path) = scopesOn path := by simp [scopesOn, hscope]
  refine ⟨h.role, by simp [inClass_cons, hclass, h.inClass, Context.withLoop], hscopes ▸ h.seen, ?_⟩
  rintro _ ⟨⟩ s hs
  exact .inr ⟨hu, h.here_nil hdecl s (hscopes ▸ hs)⟩

end statement

theorem child (h : Stands Δ j path) (hj : j.Regular) (hk : (j.children Δ)[i]? = some (Γ, k)) :
    Stands Γ k ((j, i) :: path) := by
  cases j with
  | expr e =>
    have hin : ∀ d, Stands Δ (.expr d) ((.expr e, i) :: path) := fun d =>
      ⟨h.role, by simp [inClass_cons, h.inClass], h.seen, fun _ he => by cases he⟩
    have hmem := List.mem_of_getElem? hk
    cases e with
    | ofStmt t => exact hj.elim
    | literal | ref | self | stub => cases hmem
    | function f =>
      obtain ⟨rfl, rfl⟩ := Prod.mk.inj (List.mem_singleton.1 hmem)
      exact ⟨rfl, by simp [inClass_cons, Context.withRole, h.inClass], h.seen, fun _ he => by cases he⟩
    | _ =>
      simp only [Node.children, List.mem_cons, List.not_mem_nil, or_false, List.mem_map, Prod.mk.injEq] at hmem
      grind
  | lambda f =>
    obtain ⟨t, ht, rfl, rfl⟩ := Context.getElem?_sequence hk
    refine ⟨by rw [Context.here_afterAll]; exact h.role, ?_, ?_, ?_⟩
    · rw [Context.here_afterAll]
      simpa [inClass_cons, Context.enter, Context.withLoop] using h.inClass
    · exact h.seen.afterAll (s := ⟨f.params.map Token.lexeme, f.body, i⟩) rfl (Context.paramsSeen_find? f.params)
    · rintro _ ⟨⟩ s hs
      obtain rfl := Option.some.inj hs
      exact .inl ht
  | stmt t =>
    cases t with
    | varDecl name initial =>
      cases initial with
      | none => cases hk
      | some e =>
        obtain ⟨rfl, rfl⟩ := Prod.mk.inj (List.mem_singleton.1 (List.mem_of_getElem? hk))
        refine ⟨?_, ?_, h.seen.put (h.around rfl) rfl, fun _ he => by cases he⟩
        · rw [Context.here_put]
          exact h.role
        · rw [Context.here_put]
          simpa [inClass_cons] using h.inClass
    | funDecl name f =>
      obtain ⟨rfl, rfl⟩ := Prod.mk.inj (List.mem_singleton.1 (List.mem_of_getElem? hk))
      refine ⟨rfl, ?_, h.seen.put (h.around rfl) rfl, fun _ he => by cases he⟩
      simpa [inClass_cons, Context.withRole] using h.inClass
    | classDecl name ms =>
      rw [Node.children, List.getElem?_map, Option.map_eq_some_iff] at hk
      obtain ⟨m, hm, hmk⟩ := hk
      obtain ⟨rfl, rfl⟩ := Prod.mk.inj hmk
      refine ⟨by simp [roleOn, roleOf, hm, Context.withRole], ?_, ?_, fun _ he => by cases he⟩
      · simp [inClass_cons, Context.withRole, Context.withClass]
      · refine .cons (s := ⟨[selfName], [], i⟩) (fun n => ?_) (h.seen.put (h.around rfl) rfl)
        by_cases hn : n = selfName <;>
          simp [hn, Bindings.find?, Enclosing.shown?, Enclosing.here, Enclosing.around?, Enclosing.before,
            declaredNames]
    | block ss =>
      obtain ⟨t, ht, rfl, rfl⟩ := Context.getElem?_sequence hk
      refine ⟨by rw [Context.here_afterAll]; exact h.role, ?_, ?_, ?_⟩
      · rw [Context.here_afterAll]
        simpa [inClass_cons, Context.enter] using h.inClass
      · exact (h.seen_inside rfl).afterAll (s := ⟨[], ss, i⟩) rfl (by simp)
      · rintro _ ⟨⟩ s hs
        obtain rfl := Option.some.inj hs
        exact .inl ht
    | ifThen c y no =>
      have hmem := List.mem_of_getElem? hk
      cases no with
      | none =>
        simp only [Node.children, List.mem_cons, List.not_mem_nil, or_false, Prod.mk.injEq] at hmem
        obtain ⟨rfl, rfl⟩ | ⟨rfl, rfl⟩ := hmem
        · exact h.expr rfl rfl c
        · exact h.branch rfl rfl hj.1 Γ.here.inLoop
      | some n =>
        simp only [Node.children, List.mem_cons, List.not_mem_nil, or_false, Prod.mk.injEq] at hmem
        obtain ⟨rfl, rfl⟩ | ⟨rfl, rfl⟩ | ⟨rfl, rfl⟩ := hmem
        · exact h.expr rfl rfl c
        · exact h.branch rfl rfl hj.1 Γ.here.inLoop
        · exact h.branch rfl rfl (hj.2 n rfl) Γ.here.inLoop
    | whileLoop c b step =>
      have hmem := List.mem_of_getElem? hk
      cases step with
      | none =>
        simp only [Node.children, List.mem_cons, List.not_mem_nil, or_false, Prod.mk.injEq] at hmem
        obtain ⟨rfl, rfl⟩ | ⟨rfl, rfl⟩ := hmem
        · exact h.expr rfl rfl c
        · exact h.branch rfl rfl hj.1 true
      | some u =>
        simp only [Node.children, List.mem_cons, List.not_mem_nil, or_false, Prod.mk.injEq] at hmem
        obtain ⟨rfl, rfl⟩ | ⟨rfl, rfl⟩ | ⟨rfl, rfl⟩ := hmem
        · exact h.expr rfl rfl c
        · exact h.branch rfl rfl hj.1 true
        · obtain ⟨e, rfl⟩ := hj.2 u rfl
          exact h.branch rfl rfl rfl true
    | ret keyword value =>
      cases value with
      | none => cases hk
      | some e =>
        obtain ⟨rfl, rfl⟩ := Prod.mk.inj (List.mem_singleton.1 (List.mem_of_getElem? hk))
        exact h.expr rfl rfl e
    | breakLoop | continueLoop => cases hk
    | expression e | print e | ofExpr e =>
      obtain ⟨rfl, rfl⟩ := Prod.mk.inj (List.mem_singleton.1 (List.mem_of_getElem? hk))
      exact h.expr rfl rfl e

theorem of_placeAt {program : List Stmt} {address : List Nat}
    (hregular : ∀ address Δ j, placeAt program address = some (Δ, j) → j.Regular)
    (h : placeAt program address = some (Δ, j)) : Stands Δ j (above program address) :=
  placeAt_induction (P := fun address Δ j => Stands Δ j (above program address)) (fun _ _ _ hi => top hi)
    (fun outer Δ j i _ _ hj ih hk => above_cons (nodeAt_of_placeAt hj) i ▸ ih.child (hregular outer Δ j hj) hk) h

end Stands

end LoxLang
