import LoxLang.Proofs.Bindings
import LoxLang.Proofs.Tree.Occurrence

namespace LoxLang

def Expr.bare? (e : Expr) : Option String :=
  match e.ungroup with
  | .ref name _ => some name.lexeme
  | _ => none

namespace Node

/-- What every node of a program text keeps to, whatever surrounds it. -/
def Regular : Node → Prop
  | .expr (.ref name _) | .expr (.assign name _ _) => name.lexeme ≠ selfName
  | .expr (.self keyword _) => keyword.lexeme = selfName
  | .expr (.ofStmt _) | .expr (.stub _) | .stmt (.ofExpr _) => False
  | .lambda f => ∀ p ∈ f.params, p.lexeme ≠ selfName
  | .stmt (.varDecl name _) | .stmt (.funDecl name _) | .stmt (.classDecl name _) =>
    name.lexeme ≠ selfName
  | .stmt (.ifThen _ y n) => y.declares = [] ∧ ∀ t, n = some t → t.declares = []
  | .stmt (.whileLoop _ b s) => b.declares = [] ∧ ∀ t, s = some t → ∃ e, t = .expression e
  | _ => True

def Legal (Δ : Context) : Node → Prop
  | .expr (.ref name hops) | .expr (.assign name hops _) =>
    hops = Scopes.hops? name.lexeme Δ.seen
  | .expr (.self keyword hops) =>
    Δ.here.inClass = true ∧ hops = Scopes.hops? keyword.lexeme Δ.seen
  | .lambda f => (f.params.map Token.lexeme).Nodup
  | .stmt (.varDecl name none) => Δ.Free name.lexeme
  | .stmt (.varDecl name (some e)) =>
    Δ.Free name.lexeme ∧ (Δ.levels ≠ [] → e.bare? ≠ some name.lexeme)
  | .stmt (.funDecl name _) | .stmt (.classDecl name _) => Δ.Free name.lexeme
  | .stmt (.ret _ value) =>
    Δ.here.role ≠ .none ∧ (value.isSome = true → Δ.here.role ≠ .initializer)
  | .stmt (.breakLoop _) | .stmt (.continueLoop _) => Δ.here.inLoop = true
  | _ => True

def parts (j : Node) : List Node := (j.children {}).map Prod.snd

/-- A node with all below it of the shape that program texts have. -/
def Plain (j : Node) : Prop :=
  ∀ k, Relation.ReflTransGen (fun a b => b ∈ Node.parts a) j k → k.Regular

end Node

/-- A node with all below it that the static rules allow. -/
def Resolved (Δ : Context) (j : Node) : Prop := Throughout (fun Δ j => j.Regular ∧ j.Legal Δ) (Δ, j)

theorem resolved_iff (Δ : Context) (j : Node) :
    Resolved Δ j ↔ (j.Regular ∧ j.Legal Δ) ∧ ∀ x ∈ j.children Δ, Resolved x.1 x.2 :=
  throughout_iff _ _

theorem Context.sequence_snd (Δ : Context) (ss : List Stmt) :
    (Δ.sequence ss).map Prod.snd = ss.map Node.stmt := by
  induction ss generalizing Δ with
  | nil => rfl
  | cons t ts ih => simp [sequence, ih]

theorem Node.children_snd (Δ : Context) (j : Node) : (j.children Δ).map Prod.snd = j.parts := by
  unfold parts
  fun_cases Node.children Δ j <;> simp [Node.children, Context.sequence_snd, Function.comp_def]

theorem Reaches.parts {x y : Context × Node} (h : Reaches x y) :
    Relation.ReflTransGen (fun a b => b ∈ Node.parts a) x.2 y.2 := by
  induction h with
  | refl => exact .refl
  | @tail a b _ hab ih =>
    exact ih.tail (Node.children_snd a.1 a.2 ▸ List.mem_map_of_mem hab)

theorem reaches_of_parts (Δ : Context) {j k : Node}
    (h : Relation.ReflTransGen (fun a b => b ∈ Node.parts a) j k) : ∃ Γ, Reaches (Δ, j) (Γ, k) := by
  induction h with
  | refl => exact ⟨Δ, .refl⟩
  | @tail a b hja hab ih =>
    obtain ⟨Δa, ha⟩ := ih
    rw [← Node.children_snd Δa, List.mem_map] at hab
    obtain ⟨⟨Δb, b⟩, hb, rfl⟩ := hab
    exact ⟨Δb, ha.tail hb⟩

theorem Throughout.plain {P : Context → Node → Prop} (hP : ∀ Δ j, P Δ j → j.Regular) {Δ : Context} {j : Node}
    (h : Throughout P (Δ, j)) : j.Plain := by
  intro k hk
  obtain ⟨Γ, hr⟩ := reaches_of_parts Δ hk
  exact hP _ _ (h _ hr)

theorem Resolved.plain {Δ : Context} {j : Node} (h : Resolved Δ j) : j.Plain :=
  Throughout.plain (fun _ _ h => h.1) h

def ResolvedProgram (program : List Stmt) : Prop :=
  ∀ x ∈ Context.sequence {} program, Resolved x.1 x.2

theorem Occurs.legal {program : List Stmt} (h : ResolvedProgram program) {Δ : Context} {j : Node}
    (ho : Occurs program Δ j) : j.Regular ∧ j.Legal Δ :=
  ho.of_throughout h

section regular

variable {program : List Stmt} (hresolved : ResolvedProgram program)

include hresolved

theorem ResolvedProgram.plain : ∀ t ∈ program, (Node.stmt t).Plain := by
  intro t ht
  have hmem : Node.stmt t ∈ (Context.sequence {} program).map Prod.snd := by
    rw [Context.sequence_snd]
    exact List.mem_map_of_mem ht
  obtain ⟨⟨Γ, k⟩, hk, rfl⟩ := List.mem_map.1 hmem
  exact (hresolved _ hk).plain

theorem ResolvedProgram.regular : ∀ t ∈ program, (Node.stmt t).Regular :=
  fun t ht => hresolved.plain t ht _ .refl

theorem Occurs.regular_of_sequence {Δ Γ : Context} {j : Node} {ss : List Stmt} (ho : Occurs program Δ j)
    (hss : ∀ x ∈ Γ.sequence ss, x ∈ j.children Δ) : ∀ t ∈ ss, (Node.stmt t).Regular := by
  intro t ht
  have hmem : Node.stmt t ∈ (Γ.sequence ss).map Prod.snd := by
    rw [Context.sequence_snd]
    exact List.mem_map_of_mem ht
  obtain ⟨⟨Γ', k⟩, hk, rfl⟩ := List.mem_map.1 hmem
  exact ((ho.child (hss _ hk)).legal hresolved).1

end regular

theorem Stmt.declares_ne_self {ss : List Stmt} (h : ∀ t ∈ ss, (Node.stmt t).Regular) :
    selfName ∉ declaredNames ss := by
  intro hself
  obtain ⟨t, ht, hself⟩ := List.mem_flatMap.1 hself
  have hregular := h t ht
  cases t with
  | varDecl name _ | funDecl name _ | classDecl name _ =>
    exact hregular (List.mem_singleton.1 hself).symm
  | _ => cases hself

namespace Context

def scopes (Δ : Context) : List Scope := Δ.levels.map Level.scope

/-- What was declared before the place is declared by the scope it was declared in. -/
def Faithful (Δ : Context) : Prop :=
  ∀ l ∈ Δ.levels, ∀ name, l.seen.contains name = true → name ∈ l.scope.names

@[simp]
theorem scopes_put (Δ : Context) (name : String) (complete : Bool) :
    (Δ.put name complete).scopes = Δ.scopes := by
  obtain ⟨_ | ⟨l, ls⟩, here⟩ := Δ <;> rfl

@[simp]
theorem scopes_after (t : Stmt) (Δ : Context) : (t.after Δ).scopes = Δ.scopes := by
  cases t <;> simp [Stmt.after, Stmt.declares]

@[simp]
theorem scopes_withRole (Δ : Context) (role : Role) : (Δ.withRole role).scopes = Δ.scopes := rfl

@[simp]
theorem scopes_withLoop (Δ : Context) (inLoop : Bool) : (Δ.withLoop inLoop).scopes = Δ.scopes := rfl

@[simp]
theorem scopes_withClass (Δ : Context) : Δ.withClass.scopes = Δ.scopes := rfl

@[simp]
theorem scopes_enter (Δ : Context) (scope : Scope) (b : Bindings Bool) :
    (Δ.enter scope b).scopes = scope :: Δ.scopes := rfl

theorem names_eq (program : List Stmt) (Δ : Context) :
    Δ.names program = (Δ.scopes.head?.map Scope.names).getD (declaredNames program) := by
  obtain ⟨_ | ⟨l, ls⟩, here⟩ := Δ <;> rfl

@[simp]
theorem names_put (program : List Stmt) (Δ : Context) (name : String) (complete : Bool) :
    (Δ.put name complete).names program = Δ.names program := by
  simp [names_eq]

theorem Faithful.put {program : List Stmt} {Δ : Context} (h : Δ.Faithful) {name : String}
    (hname : name ∈ Δ.names program) (complete : Bool) : (Δ.put name complete).Faithful := by
  obtain ⟨_ | ⟨l, ls⟩, here⟩ := Δ
  · exact h
  · intro m hm n hn
    obtain rfl | hm := List.mem_cons.1 hm
    · rw [Bindings.contains_put, Bool.or_eq_true, decide_eq_true_eq] at hn
      obtain rfl | hn := hn
      · exact hname
      · exact h l (by simp) n hn
    · exact h m (by simp [hm]) n hn

theorem Faithful.after {program : List Stmt} {Δ : Context} (h : Δ.Faithful) {t : Stmt}
    (ht : ∀ n ∈ t.declares, n ∈ Δ.names program) : (t.after Δ).Faithful := by
  unfold Stmt.after
  cases t with
  | varDecl name _ | funDecl name _ | classDecl name _ => exact h.put (ht _ (by simp [Stmt.declares])) true
  | _ => exact h

theorem Faithful.enter {Δ : Context} (h : Δ.Faithful) {scope : Scope} {b : Bindings Bool}
    (hb : ∀ name, b.contains name = true → name ∈ scope.names) : (Δ.enter scope b).Faithful := by
  intro l hl
  obtain rfl | hl := List.mem_cons.1 hl
  · exact hb
  · exact h l hl

theorem contains_foldl_put (params : List Token) (b : Bindings Bool) (name : String)
    (h : (params.foldl (fun b p => b.put p.lexeme true) b).contains name = true) :
    name ∈ params.map Token.lexeme ∨ b.contains name = true := by
  induction params generalizing b with
  | nil => exact .inr h
  | cons p ps ih =>
    obtain h | h := ih (b.put p.lexeme true) h
    · exact .inl (by simp [h])
    · rw [Bindings.contains_put, Bool.or_eq_true, decide_eq_true_eq] at h
      obtain rfl | h := h
      · exact .inl (by simp)
      · exact .inr h

theorem paramsSeen_find? (params : List Token) (name : String) :
    (paramsSeen params).find? name = if name ∈ params.map Token.lexeme then some true else none := by
  suffices h : ∀ b : Bindings Bool, (params.foldl (fun b p => b.put p.lexeme true) b).find? name =
      if name ∈ params.map Token.lexeme then some true else b.find? name from h ⟨[]⟩
  induction params with
  | nil => simp
  | cons p ps ih =>
    intro b
    rw [List.foldl_cons, ih, Bindings.find?_put]
    by_cases hps : name ∈ ps.map Token.lexeme <;> by_cases hp : name = p.lexeme <;> simp_all

theorem mem_sequence {program : List Stmt} {Δ : Context} {ss : List Stmt}
    (h : Δ.Faithful) (hss : ∀ n ∈ declaredNames ss, n ∈ Δ.names program) {Γ : Context} {k : Node}
    (hk : (Γ, k) ∈ Δ.sequence ss) :
    Γ.Faithful ∧ Γ.scopes = Δ.scopes ∧ ∃ t ∈ ss, k = .stmt t := by
  induction ss generalizing Δ with
  | nil => cases hk
  | cons t ts ih =>
    obtain he | hk := List.mem_cons.1 hk
    · obtain ⟨rfl, rfl⟩ := Prod.mk.inj he
      exact ⟨h, rfl, t, by simp, rfl⟩
    · have ht : ∀ n ∈ t.declares, n ∈ Δ.names program :=
        fun n hn => hss n (by simp [declaredNames, hn])
      have hts : ∀ n ∈ declaredNames ts, n ∈ (t.after Δ).names program := by
        intro n hn
        rw [names_eq, scopes_after, ← names_eq]
        exact hss n (List.mem_flatMap.2 (by simpa using .inr (List.mem_flatMap.1 hn)))
      obtain ⟨hf, hs, u, hu, hku⟩ := ih (h.after ht) hts hk
      exact ⟨hf, by simpa using hs, u, by simp [hu], hku⟩

end Context

/-- A statement declares a name of the scope it stands in, and so did those before it. -/
def Grounded (program : List Stmt) (Δ : Context) : Node → Prop
  | .stmt t => Δ.Faithful ∧ ∀ n ∈ t.declares, n ∈ Δ.names program
  | _ => Δ.Faithful

theorem Grounded.faithful {program : List Stmt} {Δ : Context} {j : Node} (h : Grounded program Δ j) :
    Δ.Faithful := by
  cases j with
  | stmt t => exact h.1
  | expr e | lambda f => exact h

theorem grounded_of_mem_sequence (program : List Stmt) {Δ Γ : Context} {ss : List Stmt} {k : Node}
    (h : Δ.Faithful) (hss : ∀ n ∈ declaredNames ss, n ∈ Δ.names program)
    (hk : (Γ, k) ∈ Δ.sequence ss) : Grounded program Γ k := by
  obtain ⟨hf, hs, t, ht, rfl⟩ := Context.mem_sequence h hss hk
  refine ⟨hf, fun n hn => ?_⟩
  rw [Context.names_eq, hs, ← Context.names_eq]
  exact hss n (List.mem_flatMap.2 ⟨t, ht, hn⟩)

theorem Grounded.child {program : List Stmt} {Δ Γ : Context} {j k : Node} (hj : j.Regular)
    (h : Grounded program Δ j) (hk : (Γ, k) ∈ j.children Δ) : Grounded program Γ k := by
  have hf := h.faithful
  cases j with
  | expr e =>
    cases e with
    | ofStmt t => exact hj.elim
    | function f =>
      obtain ⟨rfl, rfl⟩ := Prod.mk.inj (List.mem_singleton.1 hk)
      exact hf
    | literal | ref | self | stub => cases hk
    | _ =>
      simp only [Node.children, List.mem_cons, List.not_mem_nil, or_false, List.mem_map,
        Prod.mk.injEq] at hk
      grind [Grounded]
  | lambda f =>
    refine grounded_of_mem_sequence program
      (Δ := (Δ.enter (.function f) (paramsSeen f.params)).withLoop false) (hf.enter fun name hn => ?_)
      (fun n hn => ?_) hk
    · obtain hn | hn := Context.contains_foldl_put f.params ⟨[]⟩ name hn
      · exact List.mem_append_left _ hn
      · simp at hn
    · exact List.mem_append_right _ hn
  | stmt t =>
    have inner : ∀ name complete, name ∈ t.declares → (Δ.put name complete).Faithful :=
      fun name complete hn => hf.put (h.2 name hn) complete
    have branch : ∀ {u : Stmt} {Γ : Context}, u.declares = [] → Γ.Faithful →
        Grounded program Γ (.stmt u) := fun hu hΓ => ⟨hΓ, by simp [hu]⟩
    cases t with
    | varDecl name initial =>
      cases initial with
      | none => cases hk
      | some e =>
        obtain ⟨rfl, rfl⟩ := Prod.mk.inj (List.mem_singleton.1 hk)
        exact inner _ _ (by simp [Stmt.declares])
    | funDecl name f =>
      obtain ⟨rfl, rfl⟩ := Prod.mk.inj (List.mem_singleton.1 hk)
      exact inner _ _ (by simp [Stmt.declares])
    | classDecl name ms =>
      obtain ⟨m, -, hm⟩ := List.mem_map.1 hk
      obtain ⟨rfl, rfl⟩ := Prod.mk.inj hm
      refine (inner name.lexeme true (by simp [Stmt.declares])).enter fun n hn => ?_
      exact List.mem_singleton.2 (by simpa using hn)
    | block ss =>
      exact grounded_of_mem_sequence program (Δ := Δ.enter (.block ss) ⟨[]⟩)
        (hf.enter fun n hn => by simp at hn) (fun n hn => hn) hk
    | ifThen c y no =>
      cases no <;> grind [Node.children, Node.Regular, Grounded]
    | whileLoop c b step =>
      have loop : (Δ.withLoop true).Faithful := hf
      cases step <;> grind [Node.children, Node.Regular, Grounded, Stmt.declares]
    | ret keyword value =>
      cases value with
      | none => cases hk
      | some e =>
        obtain ⟨rfl, rfl⟩ := Prod.mk.inj (List.mem_singleton.1 hk)
        exact hf
    | breakLoop | continueLoop => cases hk
    | expression e | print e | ofExpr e =>
      obtain ⟨rfl, rfl⟩ := Prod.mk.inj (List.mem_singleton.1 hk)
      exact hf

theorem Occurs.grounded {program : List Stmt} (h : ResolvedProgram program) {Δ : Context} {j : Node}
    (ho : Occurs program Δ j) : Grounded program Δ j := by
  refine Occurs.induction (P := Grounded program) (fun Δ j hj => ?_)
    (fun Δ j Γ k hj ih hk => ih.child (hj.legal h).1 hk) ho
  exact grounded_of_mem_sequence program (Δ := {}) (fun l hl => by cases hl)
    (fun n hn => hn) hj

end LoxLang
