import LoxLang.Proofs.Nesting.Scopes

namespace LoxLang

open Node

/-- What makes a rule for new statements one that accepted programs stay accepted under: the counts of scopes play
no part in it, and below the new statements the static rules hold as they did. -/
structure Rewriting (new : Node → Node → Prop) : Prop where
  statements : StatementRule new
  congr : ∀ {j k j' k'}, new j k → SameText j j' → SameText k k' → new j' k'
  allowed : ∀ {Γ x x'}, Related new Γ x x' → Resolved x.1 x.2 → new x.2 x'.2 →
    Throughout (fun Δ j => j.Common ∧ j.Allowed Δ) x'

theorem Node.Recast.congr {new : Node → Node → Prop} (hnew : Rewriting new) {j k j' k' : Node} (h : Recast new j k)
    (hj : SameText j j') (hk : SameText k k') : Recast new j' k' := by
  obtain h | h := h
  · exact .inl (hk.trans (h.trans hj.symm))
  · exact .inr (h.congr hnew.congr hj hk)

theorem Node.Recast.congr_stmts {new : Node → Node → Prop} (hnew : Rewriting new) {ts us ts' us' : List Stmt}
    (h : List.Forall₂ (fun t u => Recast new (.stmt t) (.stmt u)) ts us)
    (hts : ts'.map Stmt.uncounted = ts.map Stmt.uncounted) (hus : us'.map Stmt.uncounted = us.map Stmt.uncounted) :
    List.Forall₂ (fun t u => Recast new (.stmt t) (.stmt u)) ts' us' := by
  induction h generalizing ts' us' with
  | nil =>
    obtain rfl := List.map_eq_nil_iff.1 hts
    obtain rfl := List.map_eq_nil_iff.1 hus
    exact .nil
  | cons h _ ih =>
    obtain ⟨t', ts', rfl, ht, hts⟩ := List.map_eq_cons_iff.1 hts
    obtain ⟨u', us', rfl, hu, hus⟩ := List.map_eq_cons_iff.1 hus
    exact .cons (h.congr hnew (congrArg Node.stmt ht) (congrArg Node.stmt hu)) (ih hts hus)

theorem ordinary_of_throughout {x : Context × Node} (h : Throughout (fun Δ j => j.Common ∧ j.Allowed Δ) x) :
    x.2.Ordinary := by
  intro k hk
  obtain ⟨Δ, hr⟩ := reaches_of_parts x.1 hk
  exact (h _ hr).1

theorem forall₂_imp_mem {α β : Type} {R S : α → β → Prop} {as : List α} {bs : List β} (h : List.Forall₂ R as bs)
    (hS : ∀ a ∈ as, ∀ b ∈ bs, R a b → S a b) : List.Forall₂ S as bs := by
  induction h with
  | nil => exact .nil
  | cons hab _ ih =>
    exact .cons (hS _ (by simp) _ (by simp) hab) (ih fun a ha b hb => hS a (by simp [ha]) b (by simp [hb]))

/-- Nodes of the two bound programs, inside shared and further scopes. -/
def Paired (new : Node → Node → Prop) (Γ : List Layer) (j j' : Node) : Prop :=
  ∃ Δ Δ', Resolved Δ j ∧ Abides true Δ' j' ∧ Related new Γ (Δ, j) (Δ', j')

def Node.hops : Node → Option Nat
  | .expr (.ref _ hops) | .expr (.assign _ hops _) | .expr (.self _ hops) => hops
  | _ => none

structure Likened (pairs : List Layer → Node → Node → Prop) (Γ : List Layer) (j j' : Node) : Prop where
  alike : j.Alike j'
  parts : List.Forall₂ (pairs (j.inner Γ)) j.parts j'.parts
  hops : j'.hops = j.hops.map (past Γ)
  declares : ∀ t, j = .stmt t → Γ.head? = some .further → t.declares = []

section rewriting

variable {new : Node → Node → Prop} (hnew : Rewriting new)

include hnew

/-- The program with a statement rewritten is accepted, and bound to a tree that is paired with that of the
program. -/
theorem Rewriting.bindProgram {program program' bound : List Stmt} (hplain : ∀ t ∈ program, Node.Plain (.stmt t))
    (hreports : (bindProgram program).reports = []) (hbound : (bindProgram program).program = .ok bound)
    (h : List.Forall₂ (fun t u => Recast new (.stmt t) (.stmt u)) program program') :
    (LoxLang.bindProgram program').reports = [] ∧ ∃ bound', (LoxLang.bindProgram program').program = .ok bound' ∧
      List.Forall₂ (fun t u => Paired new [] (.stmt t) (.stmt u)) bound bound' := by
  obtain ⟨bound, hok, hsame, hresolved, -⟩ := bindProgram_binds hplain
  obtain rfl := Except.ok.inj (hok.symm.trans hbound)
  have hr : ResolvedProgram bound := hresolved.1 hreports
  have hrelated : ∀ {ss}, List.Forall₂ (fun t u => Recast new (.stmt t) (.stmt u)) bound ss →
      List.Forall₂ (Related new []) (Context.sequence {} bound) (Context.sequence {} ss) :=
    Related.sequence hnew.statements ⟨rfl, .nil⟩ (fun _ hl => by cases hl) (by simp)
  have hgood : ∀ x ∈ Context.sequence {} program', Throughout (fun Δ j => j.Common ∧ j.Allowed Δ) x := by
    intro x hx
    obtain ⟨y, hy, hyx⟩ := exists_of_mem_right (hrelated (Recast.congr_stmts hnew h hsame rfl)) hx
    exact hyx.throughout hnew.statements hnew.allowed (hr y hy)
  have hordinary : ∀ t ∈ program', Node.Ordinary (.stmt t) := by
    intro t ht
    obtain ⟨x, hx, he⟩ := List.mem_map.1 (Context.sequence_snd {} program' ▸ List.mem_map_of_mem ht)
    exact he ▸ ordinary_of_throughout (hgood x hx)
  obtain ⟨bound', hok', hsame', habides, hrules, -⟩ := bindProgram_ordinary hordinary
  have hreports' := hrules.2 fun x hx y hy => ⟨(hgood x hx y hy).2, by simp⟩
  refine ⟨hreports', bound', hok', ?_⟩
  have hpaired := forall₂_imp_mem (hrelated (Recast.congr_stmts hnew h hsame hsame'))
    (S := fun x x' => Paired new [] x.2 x'.2)
    fun x hx x' hx' h => ⟨x.1, x'.1, hr x hx, habides.1 hreports' x' hx', h⟩
  have hstmts := List.forall₂_map_left_iff.2 (List.forall₂_map_right_iff.2 hpaired)
  rw [Context.sequence_snd, Context.sequence_snd] at hstmts
  exact List.forall₂_map_left_iff.1 (List.forall₂_map_right_iff.1 hstmts)

theorem Paired.step {Γ : List Layer} {j j' : Node} (h : Paired new Γ j j') :
    new j j' ∨ Likened (Paired new) Γ j j' := by
  obtain ⟨Δ, Δ', hj, hj', h⟩ := h
  obtain hn | ⟨halike, hparts⟩ := h.recast.parts
  · exact .inl hn
  refine .inr ⟨halike, ?_, ?_, h.declares⟩
  · have hchildren := Related.children hnew.statements h (hj _ .refl).1.common halike hparts
    rw [← Node.children_snd Δ, ← Node.children_snd Δ', List.forall₂_map_left_iff, List.forall₂_map_right_iff]
    exact forall₂_imp_mem hchildren fun x hx x' hx' hrel =>
      ⟨x.1, x'.1, ((resolved_iff _ _).1 hj).2 x hx, ((abides_iff _ _ _).1 hj').2 x' hx', hrel⟩
  · have hcounted := ((Node.legal_iff _ _).1 (hj _ .refl).2).2
    have hcounted' := (hj' _ .refl).2 rfl
    have hseen := h.beside.seen.hops?
    cases halike <;> simp only [Node.hops, Node.Counted, Option.map_none] at hcounted hcounted' ⊢
    all_goals rw [hcounted, hcounted', hseen]

end rewriting

end LoxLang
