import LoxLang.Proofs.Renaming.Lockstep
import LoxLang.Proofs.Tree.Binding
import Mathlib.Data.List.Nodup

namespace LoxLang

theorem Labelling.Alike.declares {L : Labelling} {pairs : List L.Label → Node → Node → Prop} {Γ : List L.Label}
    {t t' : Stmt} (h : L.Alike pairs Γ (.stmt t) (.stmt t')) :
    t'.declares = t.declares.map (L.rename (L.head Γ)) := by
  cases h with
  | varDecl hname => simp [Stmt.declares, hname.1]
  | funDecl hname => simp [Stmt.declares, hname.1.1]
  | classDecl hname => simp [Stmt.declares, hname.1.1]
  | _ => rfl

namespace Renaming

variable {r : Renaming} {renamed : Bool} {n m : String} {Γ : List Bool}

theorem name_name (n : String) : r.name renamed (r.name renamed n) = n := by
  cases renamed with
  | false => rfl
  | true => exact Equiv.swap_apply_self ..

theorem eq_of_name_eq {renamed' : Bool} (hn : n ≠ r.new) (hm : m ≠ r.new)
    (h : r.name renamed n = r.name renamed' m) : n = m := by
  rw [name_eq hn, name_eq hm] at h
  by_cases hold : renamed = true ∧ n = r.old
  · by_cases hold' : renamed' = true ∧ m = r.old
    · exact hold.2.trans hold'.2.symm
    · rw [if_pos hold, if_neg hold'] at h
      exact absurd h.symm hm
  · rw [if_neg hold] at h
    by_cases hold' : renamed' = true ∧ m = r.old
    · rw [if_pos hold'] at h
      exact absurd h hn
    · rwa [if_neg hold'] at h

abbrev Level (r : Renaming) (renamed : Bool) : Bindings Bool → Bindings Bool → Prop :=
  Bindings.Rel (r.name renamed) (· ≠ r.new) Eq

theorem Level.find?_eq {b b' : Bindings Bool} (h : r.Level renamed b b') (n : String) :
    b'.find? (r.name renamed n) = b.find? n := by
  have hfind := Bindings.Rel.find? h (r.name_injective renamed) n
  generalize b.find? n = x at hfind ⊢
  generalize b'.find? _ = x' at hfind ⊢
  cases hfind with
  | none => rfl
  | some he => rw [he]

theorem Level.find?_other {b b' : Bindings Bool} (h : r.Level renamed b b') (hn : n ≠ r.new) (other : Bool) :
    b'.find? (r.name other n) = b.find? n ∨ b'.find? (r.name other n) = none := by
  by_cases hsame : r.name other n = r.name renamed n
  · rw [hsame]
    exact .inl (h.find?_eq n)
  · right
    have hback := h.find?_eq (r.name renamed (r.name other n))
    rw [name_name] at hback
    rw [hback]
    by_contra hheld
    have hne := Bindings.Rel.holds h (Option.isSome_iff_ne_none.2 hheld)
    apply hsame
    have hm : r.name renamed (r.name renamed (r.name other n)) = r.name other n := name_name _
    rw [← hm, eq_of_name_eq hne hn hm]

inductive Levels (r : Renaming) : List Bool → List (Bindings Bool) → List (Bindings Bool) → Prop
  | nil : Levels r [] [] []
  | cons {renamed : Bool} {Γ : List Bool} {b b' : Bindings Bool} {l l' : List (Bindings Bool)}
    (hb : r.Level renamed b b') (hl : Levels r Γ l l') : Levels r (renamed :: Γ) (b :: l) (b' :: l')

namespace Levels

variable {l l' : List (Bindings Bool)}

theorem outward?_some (h : r.Levels Γ l l') (hn : n ≠ r.new) {d : Nat} (hd : Scopes.outward? n l = some d) :
    Scopes.outward? (r.name ((Γ.drop d).headD false) n) l' = some d := by
  induction h generalizing d with
  | nil => cases hd
  | @cons renamed Γ b b' l l' hb _ ih =>
    rw [Scopes.outward?] at hd ⊢
    unfold Bindings.contains at hd ⊢
    by_cases hheld : (b.find? n).isSome = true
    · rw [if_pos hheld] at hd
      obtain rfl := Option.some.inj hd
      rw [List.drop_zero, List.headD_cons, hb.find?_eq, if_pos hheld]
    · rw [if_neg hheld, Option.map_eq_some_iff] at hd
      obtain ⟨e, he, rfl⟩ := hd
      have hfar := ih he
      obtain heq | heq := hb.find?_other hn ((Γ.drop e).headD false) <;>
        simp_all

theorem outward?_none (h : r.Levels Γ l l') (hn : n ≠ r.new) (hnone : Scopes.outward? n l = none) :
    Scopes.outward? n l' = none := by
  induction h with
  | nil => rfl
  | @cons renamed Γ b b' l l' hb _ ih =>
    rw [Scopes.outward?] at hnone ⊢
    unfold Bindings.contains at hnone ⊢
    by_cases hheld : (b.find? n).isSome = true
    · simp [hheld] at hnone
    · rw [if_neg hheld, Option.map_eq_none_iff] at hnone
      have hfar := ih hnone
      obtain heq | heq := hb.find?_other hn false <;> simp_all [name]

theorem hops?_some (h : r.Levels Γ l l') (hn : n ≠ r.new) {d : Nat} (hd : Scopes.hops? n l = some d) :
    Scopes.hops? (r.name ((Γ.drop d).headD false) n) l' = some d := by
  cases h with
  | nil => cases hd
  | @cons renamed Γ b b' l l' hb hl =>
    rw [Scopes.hops?] at hd ⊢
    by_cases hfound : b.find? n = some true
    · rw [if_pos hfound] at hd
      obtain rfl := Option.some.inj hd
      rw [List.drop_zero, List.headD_cons, hb.find?_eq, if_pos hfound]
    · rw [if_neg hfound, Option.map_eq_some_iff] at hd
      obtain ⟨e, he, rfl⟩ := hd
      have hfar := hl.outward?_some hn he
      obtain heq | heq := hb.find?_other hn ((Γ.drop e).headD false) <;> simp_all

theorem hops?_none (h : r.Levels Γ l l') (hn : n ≠ r.new) (hnone : Scopes.hops? n l = none) :
    Scopes.hops? n l' = none := by
  cases h with
  | nil => rfl
  | @cons renamed Γ b b' l l' hb hl =>
    rw [Scopes.hops?] at hnone ⊢
    by_cases hfound : b.find? n = some true
    · simp [hfound] at hnone
    · rw [if_neg hfound, Option.map_eq_none_iff] at hnone
      have hfar := hl.outward?_none hn hnone
      obtain heq | heq := hb.find?_other hn false <;> simp_all [name]

theorem hops?_mention (h : r.Levels Γ l l') {name : Token} (hnew : name.lexeme ≠ r.new) {hops : Option Nat}
    (hhops : hops = Scopes.hops? name.lexeme l) :
    hops = Scopes.hops? (r.mention Γ name hops).lexeme l' := by
  subst hhops
  cases hd : Scopes.hops? name.lexeme l with
  | none => exact (h.hops?_none hnew hd).symm
  | some d =>
    rw [mention, lexeme_token hnew]
    exact (h.hops?_some hnew hd).symm

end Levels

structure Beside (r : Renaming) (Γ : List Bool) (Δ Δ' : Context) : Prop where
  here : Δ'.here = Δ.here
  levels : r.Levels Γ Δ.seen Δ'.seen

namespace Beside

variable {Δ Δ' : Context}

theorem put (h : r.Beside Γ Δ Δ') (hn : n ≠ r.new) (complete : Bool) :
    r.Beside Γ (Δ.put n complete) (Δ'.put (r.name (Γ.headD false) n) complete) := by
  refine ⟨by simp [h.here], ?_⟩
  have hlevels := h.levels
  rw [Context.seen_put, Context.seen_put]
  generalize Δ.seen = l at hlevels ⊢
  generalize Δ'.seen = l' at hlevels ⊢
  cases hlevels with
  | nil => exact .nil
  | cons hb hl => exact .cons (Bindings.Rel.put hb (r.name_injective _) hn rfl) hl

theorem after (h : r.Beside Γ Δ Δ') {t t' : Stmt} (ht : t'.declares = t.declares.map (r.name (Γ.headD false)))
    (hnew : r.new ∉ t.declares) : r.Beside Γ (t.after Δ) (t'.after Δ') := by
  unfold Stmt.after
  rw [ht]
  generalize t.declares = names at hnew
  induction names generalizing Δ Δ' with
  | nil => exact h
  | cons n ns ih =>
    rw [List.mem_cons, not_or] at hnew
    exact ih (h.put (Ne.symm hnew.1) true) hnew.2

theorem enter (h : r.Beside Γ Δ Δ') (scope scope' : Scope) {b b' : Bindings Bool} (hb : r.Level renamed b b') :
    r.Beside (renamed :: Γ) (Δ.enter scope b) (Δ'.enter scope' b') :=
  ⟨h.here, .cons hb h.levels⟩

theorem withRole (h : r.Beside Γ Δ Δ') (role : Role) : r.Beside Γ (Δ.withRole role) (Δ'.withRole role) :=
  ⟨by simp [Context.withRole, h.here], h.levels⟩

theorem withClass (h : r.Beside Γ Δ Δ') : r.Beside Γ Δ.withClass Δ'.withClass :=
  ⟨by simp [Context.withClass, h.here], h.levels⟩

theorem withLoop (h : r.Beside Γ Δ Δ') (inLoop : Bool) : r.Beside Γ (Δ.withLoop inLoop) (Δ'.withLoop inLoop) :=
  ⟨by simp [Context.withLoop, h.here], h.levels⟩

theorem free (h : r.Beside Γ Δ Δ') (hfree : Δ.Free n) : Δ'.Free (r.name (Γ.headD false) n) := by
  have hlevels := h.levels
  rw [Context.free_iff_seen] at hfree ⊢
  generalize Δ.seen = l at hlevels hfree
  generalize Δ'.seen = l' at hlevels ⊢
  cases hlevels with
  | nil => simp
  | cons hb hl =>
    simp only [List.head?_cons, Option.mem_some_iff, forall_eq'] at hfree ⊢
    rw [List.headD_cons, Bindings.Rel.contains_eq hb (r.name_injective _)]
    exact hfree

theorem levels_ne_nil (h : r.Beside Γ Δ Δ') (hne : Δ'.levels ≠ []) : Δ.levels ≠ [] := by
  intro hnil
  have hlevels := h.levels
  rw [Context.seen, hnil] at hlevels
  generalize hseen : Δ'.seen = l' at hlevels
  cases hlevels
  exact hne (List.map_eq_nil_iff.1 hseen)

end Beside

section places

variable {program : List Stmt} (h : r.Sound program) {Δ Δ' : Context}

theorem name_ne_self (h : r.Sound program) (hn : n ≠ selfName) : r.name renamed n ≠ selfName := by
  intro hself
  have hkept : r.name renamed selfName = selfName := h.name_self
  exact hn (r.name_injective renamed (hself.trans hkept.symm))

theorem lexeme_mention {name : Token} (hnew : name.lexeme ≠ r.new) (hops : Option Nat) :
    ∃ renamed, (r.mention Γ name hops).lexeme = r.name renamed name.lexeme := by
  cases hops with
  | none => exact ⟨false, rfl⟩
  | some d => exact ⟨_, lexeme_token hnew⟩

theorem level_params {params params' : List Token}
    (hparams : List.Forall₂ ((labelling h).Declared renamed) params params') {b b' : Bindings Bool}
    (hb : r.Level renamed b b') :
    r.Level renamed (params.foldl (fun b p => b.put p.lexeme true) b)
      (params'.foldl (fun b p => b.put p.lexeme true) b') := by
  induction hparams generalizing b b' with
  | nil => exact hb
  | cons hp _ ih =>
    rw [List.foldl_cons, List.foldl_cons, hp.1]
    exact ih (Bindings.Rel.put hb (r.name_injective renamed) hp.2 rfl)

theorem declares_rename {place : List Nat} {t : Stmt} (ht : t.declares = []) :
    (t.rename r true place Γ).declares = [] := by
  cases t with
  | varDecl | funDecl | classDecl => cases ht
  | ifThen c y no => cases no <;> rfl
  | whileLoop c b step => cases step <;> rfl
  | ret keyword value => cases value <;> rfl
  | _ => rfl

/-- A node of the renamed program in its context, and the node of the program that it comes from. -/
def Counterpart (r : Renaming) (program : List Stmt) (x x' : Context × Node) : Prop :=
  ∃ Γ, r.Beside Γ x.1 x'.1 ∧ r.Pairs program Γ x.2 x'.2

include h

theorem Pairs.new_not_declared {t t' : Stmt} (hp : r.Pairs program Γ (.stmt t) (.stmt t')) : r.new ∉ t.declares := by
  obtain ⟨place, hj, -⟩ := hp
  exact h.not_mem place _ hj

theorem counterpart_sequence {ss ss' : List Stmt}
    (hss : List.Forall₂ (fun t t' => r.Pairs program Γ (.stmt t) (.stmt t')) ss ss') (hΔ : r.Beside Γ Δ Δ')
    {x' : Context × Node} (hx' : x' ∈ Δ'.sequence ss') : ∃ x ∈ Δ.sequence ss, r.Counterpart program x x' := by
  induction hss generalizing Δ Δ' with
  | nil => cases hx'
  | @cons t t' ts ts' ht _ ih =>
    obtain rfl | hx' := List.mem_cons.1 hx'
    · exact ⟨(Δ, .stmt t), by simp [Context.sequence], Γ, hΔ, ht⟩
    · have hafter := hΔ.after (ht.alike h).declares (ht.new_not_declared h)
      obtain ⟨x, hx, hcounterpart⟩ := ih hafter hx'
      exact ⟨x, List.mem_cons_of_mem _ hx, hcounterpart⟩

theorem Counterpart.child {x x' y' : Context × Node} (hx : r.Counterpart program x x')
    (hy : y' ∈ x'.2.children x'.1) : ∃ y ∈ x.2.children x.1, r.Counterpart program y y' := by
  obtain ⟨Δ, j⟩ := x
  obtain ⟨Δ', j'⟩ := x'
  obtain ⟨Γ, hΔ, hp⟩ := hx
  have here : ∀ {k k'}, r.Pairs program Γ k k' → (Δ, k) ∈ j.children Δ → y' = (Δ', k') →
      ∃ y ∈ j.children Δ, r.Counterpart program y y' := by
    rintro k k' hk hmem rfl
    exact ⟨(Δ, k), hmem, Γ, hΔ, hk⟩
  have loop : ∀ {k k'}, r.Pairs program Γ k k' → (Δ.withLoop true, k) ∈ j.children Δ →
      y' = (Δ'.withLoop true, k') → ∃ y ∈ j.children Δ, r.Counterpart program y y' := by
    rintro k k' hk hmem rfl
    exact ⟨(Δ.withLoop true, k), hmem, Γ, hΔ.withLoop true, hk⟩
  have side : ∀ {es es' : List Expr}, List.Forall₂ (fun e e' => r.Pairs program Γ (.expr e) (.expr e')) es es' →
      (∀ e ∈ es, (Δ, .expr e) ∈ j.children Δ) → y' ∈ es'.map (fun e => (Δ', .expr e)) →
      ∃ y ∈ j.children Δ, r.Counterpart program y y' := by
    intro es es' hes hmem hy
    obtain ⟨e', he', rfl⟩ := List.mem_map.1 hy
    obtain ⟨e, he, hpair⟩ := exists_of_mem_right hes he'
    exact here hpair (hmem e he) rfl
  have halike := hp.alike h
  cases halike with
  | literal | ref | self => cases hy
  | assign _ _ _ _ he | group he | unary _ he | property _ he =>
    exact here he (by simp [Node.children]) (List.mem_singleton.1 hy)
  | binary op hl hr =>
    simp only [Node.children, List.mem_cons, List.not_mem_nil, or_false] at hy
    obtain hy | hy := hy
    · exact here hl (by simp [Node.children]) hy
    · exact here hr (by simp [Node.children]) hy
  | logical op hl hr =>
    simp only [Node.children, List.mem_cons, List.not_mem_nil, or_false] at hy
    obtain hy | hy := hy
    · exact here hl (by simp [Node.children]) hy
    · exact here hr (by simp [Node.children]) hy
  | ternary line hc hyes hno =>
    simp only [Node.children, List.mem_cons, List.not_mem_nil, or_false] at hy
    obtain hy | hy | hy := hy
    · exact here hc (by simp [Node.children]) hy
    · exact here hyes (by simp [Node.children]) hy
    · exact here hno (by simp [Node.children]) hy
  | call paren hf hes =>
    obtain hy | hy := List.mem_cons.1 hy
    · exact here hf (by simp [Node.children]) hy
    · exact side hes (fun e he => by simp [Node.children, he]) hy
  | setProperty name ho hv =>
    simp only [Node.children, List.mem_cons, List.not_mem_nil, or_false] at hy
    obtain hy | hy := hy
    · exact here ho (by simp [Node.children]) hy
    · exact here hv (by simp [Node.children]) hy
  | function hf =>
    obtain rfl := List.mem_singleton.1 hy
    exact ⟨_, List.mem_singleton.2 rfl, Γ, hΔ.withRole .function, hf⟩
  | list hes => exact side hes (fun e he => by simp [Node.children, he]) hy
  | lambda renamed hparams hbody =>
    have hempty : r.Level renamed ⟨[]⟩ ⟨[]⟩ := Bindings.Rel.empty
    have hlevel := level_params h hparams hempty
    exact counterpart_sequence h hbody ((hΔ.enter _ _ hlevel).withLoop false) hy
  | expression he | print he => exact here he (by simp [Node.children]) (List.mem_singleton.1 hy)
  | varDecl hname hinitial =>
    cases hinitial with
    | none => cases hy
    | some he =>
      obtain rfl := List.mem_singleton.1 hy
      refine ⟨_, List.mem_singleton.2 rfl, Γ, ?_, he⟩
      rw [hname.1]
      exact hΔ.put hname.2 false
  | funDecl hname hf =>
    obtain rfl := List.mem_singleton.1 hy
    refine ⟨_, List.mem_singleton.2 rfl, Γ, ?_, hf⟩
    rw [hname.1.1]
    exact (hΔ.put hname.1.2 true).withRole .function
  | @classDecl name name' ms ms' hname hms =>
    obtain ⟨m', hm', rfl⟩ := List.mem_map.1 hy
    obtain ⟨m, hm, hrole, renamed, hself, hdefinition⟩ := exists_of_mem_right hms hm'
    refine ⟨_, List.mem_map_of_mem hm, renamed :: Γ, ?_, hdefinition⟩
    have hlevel : r.Level renamed ⟨[(selfName, true)]⟩ ⟨[(selfName, true)]⟩ :=
      Bindings.Rel.single h.name_self.symm hself rfl
    have hmethod : m'.role = m.role := by rw [Method.role, Method.role, hrole]
    rw [hname.1.1, hmethod]
    exact (((hΔ.put hname.1.2 true).enter _ _ hlevel).withClass).withRole m.role
  | block renamed hss =>
    have hempty : r.Level renamed ⟨[]⟩ ⟨[]⟩ := Bindings.Rel.empty
    exact counterpart_sequence h hss (hΔ.enter _ _ hempty) hy
  | ifThen hc hyes hno =>
    cases hno with
    | none =>
      simp only [Node.children, List.mem_cons, List.not_mem_nil, or_false] at hy
      obtain hy | hy := hy
      · exact here hc (by simp [Node.children]) hy
      · exact here hyes (by simp [Node.children]) hy
    | some hn =>
      simp only [Node.children, List.mem_cons, List.not_mem_nil, or_false] at hy
      obtain hy | hy | hy := hy
      · exact here hc (by simp [Node.children]) hy
      · exact here hyes (by simp [Node.children]) hy
      · exact here hn (by simp [Node.children]) hy
  | whileLoop hc hb hstep =>
    cases hstep with
    | none =>
      simp only [Node.children, List.mem_cons, List.not_mem_nil, or_false] at hy
      obtain hy | hy := hy
      · exact here hc (by simp [Node.children]) hy
      · exact loop hb (by simp [Node.children]) hy
    | some hs =>
      simp only [Node.children, List.mem_cons, List.not_mem_nil, or_false] at hy
      obtain hy | hy | hy := hy
      · exact here hc (by simp [Node.children]) hy
      · exact loop hb (by simp [Node.children]) hy
      · exact loop hs (by simp [Node.children]) hy
  | ret keyword keyword' hvalue =>
    cases hvalue with
    | none => cases hy
    | some he => exact here he (by simp [Node.children]) (List.mem_singleton.1 hy)
  | breakLoop | continueLoop => cases hy

theorem bare?_rename {place : List Nat} (e : Expr) (hj : nodeAt program place = some (.expr e))
    (hm : (e.rename r true place Γ).bare? = some m) :
    ∃ n renamed, e.bare? = some n ∧ n ≠ r.new ∧ m = r.name renamed n := by
  induction e using Expr.ungroup.induct generalizing place with
  | case1 e ih =>
    have hpart : nodeAt program (0 :: place) = some (.expr e) := nodeAt_cons hj 0
    exact ih hpart hm
  | case2 e hgroup =>
    cases e with
    | ref name hops =>
      have hnew : name.lexeme ≠ r.new := fun he => h.not_mem place _ hj (List.mem_singleton.2 he.symm)
      obtain ⟨renamed, hlexeme⟩ := lexeme_mention (Γ := Γ) hnew hops
      exact ⟨name.lexeme, renamed, rfl, hnew, (Option.some.inj hm).symm.trans hlexeme⟩
    | group e => exact absurd rfl (hgroup e)
    | _ => cases hm

theorem Pairs.legal {j j' : Node} (hp : r.Pairs program Γ j j') (hΔ : r.Beside Γ Δ Δ')
    (hj : j.Regular ∧ j.Legal Δ) : j'.Regular ∧ j'.Legal Δ' := by
  have halike := hp.alike h
  obtain ⟨place, hplace, rfl, hroutine⟩ := hp
  have hnew := h.not_mem place j hplace
  obtain ⟨hregular, hlegal⟩ := hj
  cases j with
  | expr e =>
    cases e with
    | ref name hops | assign name hops _ =>
      have hname : name.lexeme ≠ r.new := fun he => hnew (List.mem_singleton.2 he.symm)
      obtain ⟨renamed, hlexeme⟩ := lexeme_mention (Γ := Γ) hname hops
      refine ⟨?_, hΔ.levels.hops?_mention hname hlegal⟩
      change (r.mention Γ name hops).lexeme ≠ selfName
      rw [hlexeme]
      exact name_ne_self h hregular
    | self keyword hops =>
      have hself : keyword.lexeme = selfName := hregular
      have hfound := hΔ.levels.hops?_mention (by rw [hself]; exact h.new_ne_self.symm) hlegal.2
      refine ⟨hregular, hΔ.here ▸ hlegal.1, ?_⟩
      have hsame : (r.mention Γ keyword hops).lexeme = keyword.lexeme := by
        have hnew' : keyword.lexeme ≠ r.new := by rw [hself]; exact h.new_ne_self.symm
        obtain ⟨renamed, hlexeme⟩ := lexeme_mention (Γ := Γ) hnew' hops
        rw [hlexeme, hself, h.name_self]
      rw [hsame] at hfound
      exact hfound
    | ofStmt t => exact hregular.elim
    | stub s => exact hregular.elim
    | _ => exact ⟨trivial, trivial⟩
  | lambda f =>
    obtain ⟨params, body⟩ := f
    have hlexemes : (params.map (r.token (decide (place = r.address)))).map Token.lexeme =
        (params.map Token.lexeme).map (r.name (decide (place = r.address))) := by
      rw [List.map_map, List.map_map]
      apply List.map_congr_left
      intro p hp
      exact lexeme_token fun he => hnew (he ▸ List.mem_map_of_mem hp)
    refine ⟨?_, ?_⟩
    · intro p' hp'
      have hmem := List.mem_map_of_mem (f := Token.lexeme) hp'
      rw [show (Lambda.rename r true place Γ ⟨params, body⟩).params.map Token.lexeme = _ from hlexemes] at hmem
      obtain ⟨n, hn, hlexeme⟩ := List.mem_map.1 hmem
      obtain ⟨p, hp, rfl⟩ := List.mem_map.1 hn
      rw [← hlexeme]
      exact name_ne_self h (hregular p hp)
    · change ((params.map (r.token (decide (place = r.address)))).map Token.lexeme).Nodup
      have hnodup : (params.map Token.lexeme).Nodup := hlegal
      rw [hlexemes]
      exact hnodup.map (r.name_injective _)
  | stmt t =>
    have hdeclared : ∀ {name : Token}, name.lexeme ∈ t.declares → name.lexeme ≠ selfName →
        (r.token (Γ.headD false) name).lexeme = r.name (Γ.headD false) name.lexeme ∧
          (r.token (Γ.headD false) name).lexeme ≠ selfName := by
      intro name hmem hself
      have hlexeme : (r.token (Γ.headD false) name).lexeme = r.name (Γ.headD false) name.lexeme :=
        lexeme_token fun he => hnew (he ▸ hmem)
      exact ⟨hlexeme, hlexeme ▸ name_ne_self h hself⟩
    cases t with
    | varDecl name initial =>
      have hmem : name.lexeme ∈ (Stmt.varDecl name initial).declares := by simp [Stmt.declares]
      obtain ⟨hlexeme, hself⟩ := hdeclared hmem hregular
      cases initial with
      | none =>
        have hfree := hΔ.free hlegal
        rw [← hlexeme] at hfree
        exact ⟨hself, hfree⟩
      | some e =>
        have hfree := hΔ.free hlegal.1
        rw [← hlexeme] at hfree
        refine ⟨hself, hfree, fun hne hbare => ?_⟩
        rw [hlexeme] at hbare
        obtain ⟨n, renamed, he, hn, hsame⟩ := bare?_rename h e (nodeAt_cons hplace 0) hbare
        have hname : name.lexeme ≠ r.new := fun he => hnew (List.mem_singleton.2 he.symm)
        obtain rfl := eq_of_name_eq hname hn hsame
        exact hlegal.2 (hΔ.levels_ne_nil hne) he
    | funDecl name f =>
      cases halike with
      | funDecl hname =>
        have hfree := hΔ.free hlegal
        rw [show r.name (Γ.headD false) name.lexeme = name.lexeme from hname.1.1.symm] at hfree
        exact ⟨hregular, hfree⟩
    | classDecl name ms =>
      cases halike with
      | classDecl hname =>
        have hfree := hΔ.free hlegal
        rw [show r.name (Γ.headD false) name.lexeme = name.lexeme from hname.1.1.symm] at hfree
        exact ⟨hregular, hfree⟩
    | ifThen c y no =>
      obtain ⟨hy, hno⟩ := hregular
      cases no with
      | none => exact ⟨⟨declares_rename hy, by simp⟩, trivial⟩
      | some n =>
        refine ⟨⟨declares_rename hy, fun t ht => ?_⟩, trivial⟩
        rw [← Option.some.inj ht]
        exact declares_rename (hno n rfl)
    | whileLoop c b step =>
      obtain ⟨hb, hstep⟩ := hregular
      cases step with
      | none => exact ⟨⟨declares_rename hb, by simp⟩, trivial⟩
      | some s =>
        refine ⟨⟨declares_rename hb, fun t ht => ?_⟩, trivial⟩
        obtain ⟨e, rfl⟩ := hstep s rfl
        exact ⟨_, (Option.some.inj ht).symm⟩
    | ret keyword value =>
      have hrole : Δ.here.role ≠ .none ∧ (value.isSome = true → Δ.here.role ≠ .initializer) := hlegal
      rw [← hΔ.here] at hrole
      cases value with
      | none => exact ⟨trivial, hrole⟩
      | some e => exact ⟨trivial, hrole⟩
    | breakLoop keyword | continueLoop keyword =>
      have hloop : Δ.here.inLoop = true := hlegal
      rw [← hΔ.here] at hloop
      exact ⟨trivial, hloop⟩
    | ofExpr e => exact hregular.elim
    | _ => exact ⟨trivial, trivial⟩

theorem Counterpart.resolved {x x' : Context × Node} (hx : r.Counterpart program x x') (hr : Resolved x.1 x.2) :
    Resolved x'.1 x'.2 := by
  have hreach : ∀ y', Reaches x' y' → ∃ y, Reaches x y ∧ r.Counterpart program y y' := by
    intro y' hy'
    induction hy' with
    | refl => exact ⟨x, .refl, hx⟩
    | tail _ hz ih =>
      obtain ⟨y, hy, hcounterpart⟩ := ih
      obtain ⟨z, hz, hnext⟩ := hcounterpart.child h hz
      exact ⟨z, hy.tail hz, hnext⟩
  intro y' hy'
  obtain ⟨y, hy, Γ, hΔ, hp⟩ := hreach y' hy'
  exact hp.legal h hΔ (hr y hy)

/-- A renamed program keeps to the static rules. -/
theorem Sound.resolved (hr : ResolvedProgram program) : ResolvedProgram (renameProgram r true program) := by
  intro x' hx'
  have hstart : r.Beside [] {} {} := ⟨rfl, .nil⟩
  obtain ⟨x, hx, hcounterpart⟩ := counterpart_sequence h (Pairs.whole r program) hstart hx'
  exact hcounterpart.resolved h (hr x hx)

end places

end Renaming

end LoxLang
