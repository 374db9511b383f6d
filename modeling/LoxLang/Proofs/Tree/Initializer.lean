import LoxLang.Proofs.Running.Scoped

namespace LoxLang

namespace Context

/-- All that the innermost scope declares before the place is complete. -/
def Settled (Δ : Context) : Prop := ∀ l ∈ Δ.levels.head?, ∀ name, l.seen.find? name ≠ some false

theorem Settled.put {Δ : Context} (h : Δ.Settled) (name : String) : (Δ.put name true).Settled := by
  obtain ⟨_ | ⟨l, ls⟩, here⟩ := Δ
  · exact h
  · intro m hm other
    obtain rfl := Option.some.inj hm
    rw [Bindings.find?_put]
    split
    · simp
    · exact h l rfl other

theorem Settled.after {Δ : Context} (h : Δ.Settled) (t : Stmt) : (t.after Δ).Settled := by
  unfold Stmt.after
  cases t with
  | varDecl name _ | funDecl name _ | classDecl name _ => exact h.put name.lexeme
  | _ => exact h

theorem Settled.sequence {Δ Γ : Context} {ss : List Stmt} {k : Node} (h : Δ.Settled)
    (hk : (Γ, k) ∈ Δ.sequence ss) : Γ.Settled := by
  induction ss generalizing Δ with
  | nil => cases hk
  | cons t ts ih =>
    obtain he | hk := List.mem_cons.1 hk
    · exact (Prod.mk.inj he).1 ▸ h
    · exact ih (h.after t) hk

end Context

/-- Where a statement stands, the declarations before it in its scope are complete. -/
theorem Occurs.settled {program : List Stmt} (h : ResolvedProgram program) {Δ : Context} {t : Stmt}
    (ho : Occurs program Δ (.stmt t)) : Δ.Settled := by
  suffices hall : ∀ j, Occurs program Δ j → (∃ u, j = .stmt u) → Δ.Settled from hall _ ho ⟨t, rfl⟩
  intro j hj
  refine Occurs.induction (P := fun Δ j => (∃ u, j = .stmt u) → Δ.Settled) (fun Δ j hmem _ => ?_)
    (fun Δ j Γ k hj ih hk => ?_) hj
  · exact Context.Settled.sequence (Δ := {}) (fun l hl => nomatch hl) hmem
  rintro ⟨u, rfl⟩
  have hregular := (hj.legal h).1
  cases j with
  | lambda f =>
    refine Context.Settled.sequence (fun l hl name => ?_) hk
    obtain rfl := Option.some.inj hl
    rw [Context.paramsSeen_find?]
    split <;> simp
  | expr e =>
    cases e with
    | ofStmt => exact hregular.elim
    | _ => simp [Node.children] at hk
  | stmt v =>
    have hv := ih ⟨v, rfl⟩
    cases v with
    | block ss =>
      refine Context.Settled.sequence (fun l hl name => ?_) hk
      obtain rfl := Option.some.inj hl
      simp
    | varDecl name initial => cases initial <;> simp [Node.children] at hk
    | ret keyword value => cases value <;> simp [Node.children] at hk
    | ifThen c y no =>
      cases no <;> simp [Node.children] at hk
      · exact hk.1 ▸ hv
      · obtain hk | hk := hk <;> exact hk.1 ▸ hv
    | whileLoop c b step =>
      cases step <;> simp [Node.children] at hk
      · exact hk.1 ▸ hv
      · obtain hk | hk := hk <;> exact hk.1 ▸ hv
    | _ => simp [Node.children] at hk

theorem Scopes.hops?_visible {name : String} {levels : List (Bindings Bool)} {d : Nat}
    (h : hops? name levels = some d) :
    ∃ b, levels[d]? = some b ∧ (b.find? name = some true ∨ 0 < d ∧ b.find? name = some false) := by
  obtain ⟨b, hb, hcontains⟩ := hops?_spec h
  refine ⟨b, hb, ?_⟩
  obtain ⟨complete, hfind⟩ := Option.isSome_iff_exists.1 hcontains
  cases complete with
  | true => exact .inl hfind
  | false =>
    refine .inr ⟨Nat.pos_of_ne_zero ?_, hfind⟩
    rintro rfl
    obtain _ | ⟨b', bs⟩ := levels
    · cases h
    · obtain rfl := Option.some.inj hb
      simp [hops?, hfind] at h

/-- From an expression into another scope the way leads through a function expression. -/
theorem Reaches.through_function {program : List Stmt} (h : ResolvedProgram program) {Δ Γ : Context} {e : Expr}
    {j : Node} (ho : Occurs program Δ (.expr e)) (hr : Reaches (Δ, .expr e) (Γ, j)) (hne : Γ.levels ≠ Δ.levels) :
    ∃ Δ' f, Reaches (Δ, .expr e) (Δ', .expr (.function f)) ∧ Reaches (Δ', .expr (.function f)) (Γ, j) := by
  let Through (y : Context × Node) : Prop :=
    ∃ Δ' f, Reaches (Δ, .expr e) (Δ', .expr (.function f)) ∧ Reaches (Δ', .expr (.function f)) y
  suffices hall : ∀ y, Reaches (Δ, .expr e) y → Through y ∨ y.1.levels = Δ.levels ∧ ∃ e', y.2 = .expr e' by
    obtain hthrough | ⟨hsame, -⟩ := hall _ hr
    · exact hthrough
    · exact absurd hsame hne
  intro y hy
  induction hy with
  | refl => exact .inr ⟨rfl, e, rfl⟩
  | @tail y z hxy hyz ih =>
    obtain ⟨Δ', f, hf, hfy⟩ | ⟨hsame, e', he'⟩ := ih
    · exact .inl ⟨Δ', f, hf, hfy.tail hyz⟩
    obtain ⟨Δy, k⟩ := y
    obtain rfl : k = .expr e' := he'
    have hregular : (Node.expr e').Regular := by
      obtain ⟨x, hx, hxe⟩ := ho
      exact (Occurs.legal h ⟨x, hx, hxe.trans hxy⟩).1
    cases e' with
    | function f => exact .inl ⟨Δy, f, hxy, .single hyz⟩
    | ofStmt => exact hregular.elim
    | literal | ref | self | stub => simp [Node.children] at hyz
    | _ =>
      refine .inr ?_
      simp only [Node.children, List.mem_cons, List.not_mem_nil, or_false, List.mem_map] at hyz
      grind

end LoxLang
