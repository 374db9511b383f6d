import LoxLang.Native
import LoxLang.Proofs.Running.Scoped

namespace LoxLang

/-- The names of the globals, with those of the native functions. -/
def globalNames (program : List Stmt) : List String := declaredNames program ++ Native.all.map Native.name

def Node.opens? : Node → Option Scope
  | .lambda f => some (.function f)
  | .stmt (.block ss) => some (.block ss)
  | .stmt (.classDecl _ ms) => some (.object ms)
  | _ => none

/-- No scope declares a name that a scope around it declares, or that is global. That methods find their
objects under one name everywhere is no matter. -/
def Unshadowed (program : List Stmt) : Prop :=
  ∀ Δ j scope, Occurs program Δ j → j.opens? = some scope → ∀ name ∈ scope.names, name ≠ selfName →
    name ∉ globalNames program ∧ ∀ outer ∈ Δ.scopes, name ∉ outer.names

/-- Levels of which none declares a name of one further out, or of a global. A level with the object of a
method has declared it from the start. -/
def Distinct (globals : List String) : List Level → Prop
  | [] => True
  | l :: ls => (selfName ∈ l.scope.names → l.seen.find? selfName = some true) ∧
    (∀ name ∈ l.scope.names, name ≠ selfName → name ∉ globals ∧ ∀ m ∈ ls, name ∉ m.scope.names) ∧
    Distinct globals ls

theorem Distinct.put {globals : List String} {Δ : Context} (h : Distinct globals Δ.levels) {name : String}
    (hname : name ≠ selfName) (complete : Bool) : Distinct globals (Δ.put name complete).levels := by
  obtain ⟨_ | ⟨l, ls⟩, here⟩ := Δ
  · exact h
  · refine ⟨fun hself => ?_, h.2⟩
    simp only [Bindings.find?_put, hname.symm, if_false]
    exact h.1 hself

theorem Distinct.after {globals : List String} {Δ : Context} (h : Distinct globals Δ.levels) {t : Stmt}
    (ht : (Node.stmt t).Regular) : Distinct globals (t.after Δ).levels := by
  cases t with
  | varDecl name _ | funDecl name _ | classDecl name _ => exact h.put ht true
  | _ => exact h

theorem Distinct.sequence {globals : List String} {Δ Γ : Context} {ss : List Stmt} {k : Node}
    (h : Distinct globals Δ.levels) (hss : ∀ t ∈ ss, (Node.stmt t).Regular) (hk : (Γ, k) ∈ Δ.sequence ss) :
    Distinct globals Γ.levels := by
  induction ss generalizing Δ with
  | nil => cases hk
  | cons t ts ih =>
    rw [List.forall_mem_cons] at hss
    obtain he | hk := List.mem_cons.1 hk
    · obtain ⟨rfl, -⟩ := Prod.mk.inj he
      exact h
    · exact ih (h.after hss.1) hss.2 hk

theorem Node.levels_of_expr {Δ Γ : Context} {e : Expr} {k : Node} (hk : (Γ, k) ∈ (Node.expr e).children Δ) :
    Γ.levels = Δ.levels := by
  cases e with
  | function f =>
    obtain ⟨rfl, -⟩ := Prod.mk.inj (List.mem_singleton.1 hk)
    rfl
  | literal | ref | self | stub => cases hk
  | _ =>
    simp only [Node.children, List.mem_cons, List.mem_map, Prod.mk.injEq, List.not_mem_nil, or_false] at hk
    grind

section unshadowed

variable {program : List Stmt} (hresolved : ResolvedProgram program)

include hresolved

theorem self_not_global : selfName ∉ globalNames program := by
  intro hself
  obtain hself | hself := List.mem_append.1 hself
  · exact Stmt.declares_ne_self hresolved.regular hself
  · revert hself
    decide

theorem Distinct.child (h : Unshadowed program) {Δ Γ : Context} {j k : Node} (hj : Occurs program Δ j)
    (hΔ : Distinct (globalNames program) Δ.levels) (hk : (Γ, k) ∈ j.children Δ) :
    Distinct (globalNames program) Γ.levels := by
  have hregular := (hj.legal hresolved).1
  have hopen : ∀ (Δ' : Context) (scope : Scope) (b : Bindings Bool), j.opens? = some scope →
      Δ'.scopes = Δ.scopes → Distinct (globalNames program) Δ'.levels →
      (selfName ∈ scope.names → b.find? selfName = some true) →
      Distinct (globalNames program) (Δ'.enter scope b).levels := by
    intro Δ' scope b hscope hΔ' hdistinct hself
    refine ⟨hself, fun name hname hne => ?_, hdistinct⟩
    obtain ⟨hglobal, houter⟩ := h Δ j scope hj hscope name hname hne
    refine ⟨hglobal, fun m hm => houter _ ?_⟩
    rw [← hΔ']
    exact List.mem_map_of_mem hm
  cases j with
  | expr e =>
    rw [Node.levels_of_expr hk]
    exact hΔ
  | lambda f =>
    have hbody : ∀ t ∈ f.body, (Node.stmt t).Regular := hj.regular_of_sequence hresolved fun x hx => hx
    have hself : selfName ∉ (Scope.function f).names := by
      intro hself
      obtain hself | hself := List.mem_append.1 hself
      · obtain ⟨p, hp, hself⟩ := List.mem_map.1 hself
        exact hregular p hp hself
      · exact Stmt.declares_ne_self hbody hself
    have henter := hopen Δ (.function f) (paramsSeen f.params) rfl rfl hΔ fun hs => absurd hs hself
    exact Distinct.sequence (Δ := (Δ.enter (.function f) (paramsSeen f.params)).withLoop false) henter hbody hk
  | stmt t =>
    cases t with
    | varDecl name initial =>
      cases initial with
      | none => cases hk
      | some e =>
        obtain ⟨rfl, -⟩ := Prod.mk.inj (List.mem_singleton.1 hk)
        exact hΔ.put hregular false
    | funDecl name f =>
      obtain ⟨rfl, -⟩ := Prod.mk.inj (List.mem_singleton.1 hk)
      exact hΔ.put hregular true
    | classDecl name ms =>
      obtain ⟨m, -, hm⟩ := List.mem_map.1 hk
      obtain ⟨rfl, -⟩ := Prod.mk.inj hm
      exact hopen (Δ.put name.lexeme true) (.object ms) ⟨[(selfName, true)]⟩ rfl (Δ.scopes_put _ _)
        (hΔ.put hregular true) fun _ => by decide
    | block ss =>
      have hbody : ∀ t ∈ ss, (Node.stmt t).Regular := hj.regular_of_sequence hresolved fun x hx => hx
      have henter := hopen Δ (.block ss) ⟨[]⟩ rfl rfl hΔ fun hs => absurd hs (Stmt.declares_ne_self hbody)
      exact Distinct.sequence (Δ := Δ.enter (.block ss) ⟨[]⟩) henter hbody hk
    | ifThen c y no =>
      cases no <;> grind [Node.children]
    | whileLoop c b step =>
      have loop : (Δ.withLoop true).levels = Δ.levels := rfl
      cases step <;> grind [Node.children]
    | ret keyword value =>
      cases value with
      | none => cases hk
      | some e =>
        obtain ⟨rfl, -⟩ := Prod.mk.inj (List.mem_singleton.1 hk)
        exact hΔ
    | breakLoop | continueLoop => cases hk
    | expression e | print e | ofExpr e =>
      obtain ⟨rfl, -⟩ := Prod.mk.inj (List.mem_singleton.1 hk)
      exact hΔ

theorem Occurs.distinct (h : Unshadowed program) {Δ : Context} {j : Node} (ho : Occurs program Δ j) :
    Distinct (globalNames program) Δ.levels :=
  Occurs.induction (P := fun Δ _ => Distinct (globalNames program) Δ.levels)
    (fun _ _ hj => Distinct.sequence (Δ := {}) trivial hresolved.regular hj)
    (fun _ _ _ _ hj ih hk => ih.child hresolved h hj hk) ho

end unshadowed

namespace Distinct

variable {globals : List String} {name : String}

theorem not_mem_head {l : Level} {ls : List Level} (h : Distinct globals (l :: ls)) {m : Level} (hm : m ∈ ls)
    (hname : name ∈ m.scope.names) (hseen : l.seen.find? name ≠ some true) : name ∉ l.scope.names := by
  intro hl
  by_cases hself : name = selfName
  · subst hself
    exact hseen (h.1 hl)
  · exact (h.2.1 name hl hself).2 m hm hname

theorem nearer_cons {l : Level} {ls : List Level} (h : Distinct globals (l :: ls))
    (hl : l.seen.find? name ≠ some true) {d : Nat} (hd : Scopes.outward? name (ls.map Level.seen) = some d)
    (hdeclared : ∀ k, ls[d]? = some k → name ∈ k.scope.names)
    (hfar : ∀ i < d, ∀ k, ls[i]? = some k → name ∉ k.scope.names) :
    ∀ i < d + 1, ∀ k, (l :: ls)[i]? = some k → name ∉ k.scope.names := by
  obtain ⟨b, hb, -⟩ := Scopes.outward?_spec hd
  rw [List.getElem?_map, Option.map_eq_some_iff] at hb
  obtain ⟨m, hm, rfl⟩ := hb
  intro i hi k hk
  cases i with
  | zero =>
    obtain rfl := Option.some.inj hk
    exact h.not_mem_head (List.mem_of_getElem? hm) (hdeclared m hm) hl
  | succ i => exact hfar i (by omega) k hk

theorem nearer_outward {ls : List Level} (h : Distinct globals ls) {d : Nat}
    (hd : Scopes.outward? name (ls.map Level.seen) = some d)
    (hdeclared : ∀ l, ls[d]? = some l → name ∈ l.scope.names) :
    ∀ i < d, ∀ l, ls[i]? = some l → name ∉ l.scope.names := by
  induction ls generalizing d with
  | nil => cases hd
  | cons l ls ih =>
    simp only [List.map_cons, Scopes.outward?] at hd
    by_cases hl : l.seen.contains name = true
    · simp only [hl, if_true, Option.some.injEq] at hd
      omega
    · simp only [hl, Bool.false_eq_true, if_false, Option.map_eq_some_iff] at hd
      obtain ⟨e, he, rfl⟩ := hd
      refine h.nearer_cons (fun hfind => hl ?_) he hdeclared (ih h.2.2 he hdeclared)
      simp [Bindings.contains, hfind]

theorem nearer {ls : List Level} (h : Distinct globals ls) {d : Nat}
    (hd : Scopes.hops? name (ls.map Level.seen) = some d)
    (hdeclared : ∀ l, ls[d]? = some l → name ∈ l.scope.names) :
    ∀ i < d, ∀ l, ls[i]? = some l → name ∉ l.scope.names := by
  obtain _ | ⟨l, ls⟩ := ls
  · cases hd
  · simp only [List.map_cons, Scopes.hops?] at hd
    by_cases hl : l.seen.find? name = some true
    · simp only [hl, if_true, Option.some.injEq] at hd
      omega
    · simp only [hl, if_false, Option.map_eq_some_iff] at hd
      obtain ⟨e, he, rfl⟩ := hd
      exact h.nearer_cons hl he hdeclared (h.2.2.nearer_outward he hdeclared)

theorem of_global {ls : List Level} (h : Distinct globals ls) (hname : name ∈ globals)
    (hself : name ≠ selfName) : ∀ l ∈ ls, name ∉ l.scope.names := by
  induction ls with
  | nil => simp
  | cons l ls ih =>
    refine List.forall_mem_cons.2 ⟨fun hl => (h.2.1 name hl hself).1 hname, ih h.2.2⟩

end Distinct

end LoxLang
