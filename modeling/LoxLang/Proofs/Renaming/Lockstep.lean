import LoxLang.Proofs.Renaming.Tree
import LoxLang.Proofs.Running.Distance
import Mathlib.Logic.Equiv.Basic

namespace LoxLang

namespace Renaming

variable (r : Renaming)

/-- What a name is called in the renamed program, in a scope that may be that of the variable. -/
def name (renamed : Bool) : String → String :=
  if renamed then Equiv.swap r.old r.new else id

variable {r} {renamed : Bool} {n m : String}

theorem name_injective (r : Renaming) (renamed : Bool) : Function.Injective (r.name renamed) := by
  cases renamed with
  | false => exact Function.injective_id
  | true => exact (Equiv.swap r.old r.new).injective

theorem name_of_ne (hold : n ≠ r.old) (hnew : n ≠ r.new) : r.name renamed n = n := by
  cases renamed with
  | false => rfl
  | true => exact Equiv.swap_apply_of_ne_of_ne hold hnew

theorem name_eq (hnew : n ≠ r.new) :
    r.name renamed n = if renamed = true ∧ n = r.old then r.new else n := by
  by_cases hold : n = r.old
  · subst hold
    cases renamed with
    | false => rfl
    | true => simp [name]
  · rw [name_of_ne hold hnew]
    simp [hold]

@[simp]
theorem line_token (t : Token) : (r.token renamed t).line = t.line := by
  unfold token
  split <;> rfl

theorem lexeme_token {t : Token} (hnew : t.lexeme ≠ r.new) :
    (r.token renamed t).lexeme = r.name renamed t.lexeme := by
  rw [name_eq hnew, token, apply_ite Token.lexeme]

@[simp]
theorem line_mention (Γ : List Bool) (t : Token) (hops : Option Nat) : (r.mention Γ t hops).line = t.line := by
  cases hops with
  | none => rfl
  | some d => exact line_token t

/-- What makes a renaming of a program one of a variable in a single scope, to a new name. -/
structure Sound (r : Renaming) (program : List Stmt) : Prop where
  old_ne_self : r.old ≠ selfName
  new_ne_self : r.new ≠ selfName
  ne_native : ∀ n : Native, n.name ≠ r.new
  regular : ∀ place j, nodeAt program place = some j → j.Regular
  not_mem : ∀ place j, nodeAt program place = some j → r.new ∉ j.names
  routine : ∀ j, nodeAt program r.address = some j → ∀ t ∈ j.body, t.routine? ≠ some r.old

variable {program : List Stmt}

theorem Sound.name_self (h : r.Sound program) : r.name renamed selfName = selfName :=
  name_of_ne h.old_ne_self.symm h.new_ne_self.symm

def labelling (h : r.Sound program) : Labelling where
  Label := Bool
  top := false
  holds _ name := name ≠ r.new
  rename := r.name
  rename_injective := r.name_injective
  rename_self _ := h.name_self
  rename_top _ := rfl
  holds_native := h.ne_native

/-- A node of the program and its renamed one, inside scopes of which `Γ` says which is that of the
variable. No function or class has the name of the variable in its scope. -/
def Pairs (r : Renaming) (program : List Stmt) (Γ : List Bool) (j j' : Node) : Prop :=
  ∃ place, nodeAt program place = some j ∧ j' = j.rename r true place Γ ∧
    ∀ t, j = .stmt t → t.routine? = some r.old → Γ.headD false = false

theorem Pairs.expr {place : List Nat} (Γ : List Bool) {e : Expr} (h : nodeAt program place = some (.expr e)) :
    r.Pairs program Γ (.expr e) (.expr (e.rename r true place Γ)) :=
  ⟨place, h, rfl, by simp⟩

theorem Pairs.lambda {place : List Nat} (Γ : List Bool) {f : Lambda} (h : nodeAt program place = some (.lambda f)) :
    r.Pairs program Γ (.lambda f) (.lambda (f.rename r true place Γ)) :=
  ⟨place, h, rfl, by simp⟩

theorem Pairs.stmt {place : List Nat} {Γ : List Bool} {t : Stmt} (h : nodeAt program place = some (.stmt t))
    (hroutine : t.routine? = some r.old → Γ.headD false = false) :
    r.Pairs program Γ (.stmt t) (.stmt (t.rename r true place Γ)) :=
  ⟨place, h, rfl, fun _ ht => Node.stmt.inj ht ▸ hroutine⟩

theorem Pairs.branch {place : List Nat} (Γ : List Bool) {t : Stmt} (h : nodeAt program place = some (.stmt t))
    (ht : t.declares = []) : r.Pairs program Γ (.stmt t) (.stmt (t.rename r true place Γ)) := by
  apply Pairs.stmt h
  cases t <;> simp_all [Stmt.declares, Stmt.routine?]

theorem Pairs.exprs {place : List Nat} {j : Node} (Γ : List Bool) (hj : nodeAt program place = some j)
    {es : List Expr} (i : Nat) (hes : ∀ k e, es[k]? = some e → j.parts[i + k]? = some (.expr e)) :
    List.Forall₂ (fun e e' => r.Pairs program Γ (.expr e) (.expr e')) es
      (renameExprs r true place Γ i es) := by
  induction es generalizing i with
  | nil => exact .nil
  | cons e es ih =>
    refine .cons (.expr Γ ?_) (ih (i + 1) fun k e' hk => ?_)
    · rw [nodeAt_cons hj]
      exact hes 0 e rfl
    · rw [Nat.add_right_comm, Nat.add_assoc]
      exact hes (k + 1) e' hk

theorem Pairs.stmts {place : List Nat} {j : Node} {Γ : List Bool} (hj : nodeAt program place = some j)
    {ss : List Stmt} (hroutine : ∀ t ∈ ss, t.routine? = some r.old → Γ.headD false = false) (i : Nat)
    (hss : ∀ k t, ss[k]? = some t → j.parts[i + k]? = some (.stmt t)) :
    List.Forall₂ (fun t t' => r.Pairs program Γ (.stmt t) (.stmt t')) ss
      (renameStmts r true place Γ i ss) := by
  induction ss generalizing i with
  | nil => exact .nil
  | cons t ts ih =>
    rw [List.forall_mem_cons] at hroutine
    refine .cons (.stmt ?_ hroutine.1) (ih hroutine.2 (i + 1) fun k u hk => ?_)
    · rw [nodeAt_cons hj]
      exact hss 0 t rfl
    · rw [Nat.add_right_comm, Nat.add_assoc]
      exact hss (k + 1) u hk

theorem Pairs.methods {place : List Nat} {j : Node} (Γ : List Bool) (hj : nodeAt program place = some j)
    {ms : List Method} (i : Nat)
    (hms : ∀ k m, ms[k]? = some m → j.parts[i + k]? = some (.lambda m.definition)) :
    List.Forall₂ (fun m m' => m'.name.lexeme = m.name.lexeme ∧
      r.Pairs program Γ (.lambda m.definition) (.lambda m'.definition)) ms
      (renameMethods r true place Γ i ms) := by
  induction ms generalizing i with
  | nil => exact .nil
  | cons m ms ih =>
    obtain ⟨name, f⟩ := m
    refine .cons ⟨rfl, .lambda Γ ?_⟩ (ih (i + 1) fun k m hk => ?_)
    · rw [nodeAt_cons hj]
      exact hms 0 _ rfl
    · rw [Nat.add_right_comm, Nat.add_assoc]
      exact hms (k + 1) m hk

theorem Pairs.whole (r : Renaming) (program : List Stmt) :
    List.Forall₂ (fun t t' => r.Pairs program [] (.stmt t) (.stmt t')) program (renameProgram r true program) := by
  have hall : ∀ (ss : List Stmt) (i : Nat), (∀ k, ss[k]? = program[i + k]?) →
      List.Forall₂ (fun t t' => r.Pairs program [] (.stmt t) (.stmt t')) ss (renameStmts r true [] [] i ss) := by
    intro ss
    induction ss with
    | nil => exact fun _ _ => .nil
    | cons t ts ih =>
      intro i hss
      refine .cons (.stmt ?_ fun _ => rfl) (ih (i + 1) fun k => ?_)
      · have ht := hss 0
        rw [nodeAt, ← Nat.add_zero i, ← ht]
        rfl
      · rw [Nat.add_right_comm, Nat.add_assoc, ← hss]
        rfl
  exact hall program 0 fun k => by rw [Nat.zero_add]

section sound

variable (h : r.Sound program)

include h

theorem Sound.declared {renamed : Bool} {t : Token} (hnew : t.lexeme ≠ r.new) :
    (labelling h).Declared renamed t (r.token renamed t) :=
  ⟨lexeme_token hnew, hnew⟩

theorem Sound.kept {Γ : List Bool} {t : Stmt} {name : Token} (hname : t.routine? = some name.lexeme)
    (hnew : name.lexeme ≠ r.new) (hroutine : t.routine? = some r.old → Γ.headD false = false) :
    (labelling h).Kept ((labelling h).head Γ) name name := by
  refine ⟨⟨?_, hnew⟩, rfl⟩
  by_cases hold : name.lexeme = r.old
  · have hΓ := hroutine (hold ▸ hname)
    change name.lexeme = r.name (Γ.headD false) name.lexeme
    rw [hΓ]
    rfl
  · exact (name_of_ne hold hnew).symm

theorem Sound.body {place : List Nat} {Γ : List Bool} {j : Node} (hj : nodeAt program place = some j)
    (hparts : j.parts = j.body.map .stmt) :
    List.Forall₂ (fun t t' => r.Pairs program (decide (place = r.address) :: Γ) (.stmt t) (.stmt t')) j.body
      (renameStmts r true place (decide (place = r.address) :: Γ) 0 j.body) := by
  apply Pairs.stmts hj
  · intro t ht hold
    by_cases hplace : place = r.address
    · subst hplace
      exact absurd hold (h.routine j hj t ht)
    · simpa using hplace
  · intro k t hk
    simp [hparts, hk]

theorem Pairs.alike {Γ : List Bool} {j j' : Node} (hp : r.Pairs program Γ j j') :
    (labelling h).Alike (r.Pairs program) Γ j j' := by
  obtain ⟨place, hj, rfl, hroutine⟩ := hp
  have hregular := h.regular place j hj
  have hnew := h.not_mem place j hj
  have part := nodeAt_cons hj
  cases j with
  | expr e =>
    cases e with
    | literal v => exact .literal v
    | ref name hops => exact .ref ..
    | self keyword hops => exact .self ..
    | assign name hops e => exact .assign _ _ _ _ (.expr Γ (part 0))
    | group e => exact .group (.expr Γ (part 0))
    | unary op e => exact .unary op (.expr Γ (part 0))
    | binary left op right => exact .binary op (.expr Γ (part 0)) (.expr Γ (part 1))
    | logical left op right => exact .logical op (.expr Γ (part 0)) (.expr Γ (part 1))
    | ternary c y n line => exact .ternary line (.expr Γ (part 0)) (.expr Γ (part 1)) (.expr Γ (part 2))
    | call f paren es =>
      refine .call paren (.expr Γ (part 0)) (Pairs.exprs Γ hj 1 fun k e hk => ?_)
      simp [Node.parts, Node.children, Nat.add_comm 1 k, hk]
    | property o name => exact .property name (.expr Γ (part 0))
    | setProperty o name v => exact .setProperty name (.expr Γ (part 0)) (.expr Γ (part 1))
    | function f => exact .function (.lambda Γ (part 0))
    | list es =>
      refine .list (Pairs.exprs Γ hj 0 fun k e hk => ?_)
      simp [Node.parts, Node.children, hk]
    | ofStmt t => exact hregular.elim
    | stub s => exact hregular.elim
  | lambda f =>
    obtain ⟨params, body⟩ := f
    refine .lambda (decide (place = r.address)) ?_ (h.body hj ?_)
    · apply List.forall₂_map_right_iff.2
      apply List.forall₂_same.2
      intro p hp
      exact h.declared fun hlexeme => hnew (hlexeme ▸ List.mem_map_of_mem hp)
    · simp [Node.parts, Node.children, Node.body, Context.sequence_snd, Lambda.body]
  | stmt t =>
    have hroutine := hroutine t rfl
    cases t with
    | expression e => exact .expression (.expr Γ (part 0))
    | print e => exact .print (.expr Γ (part 0))
    | varDecl name initial =>
      have hname : (labelling h).Declared (Γ.headD false) name (r.token (Γ.headD false) name) :=
        h.declared fun he => hnew (List.mem_singleton.2 he.symm)
      cases initial with
      | none => exact .varDecl hname .none
      | some e => exact .varDecl hname (.some (.expr Γ (part 0)))
    | funDecl name f =>
      have hkept := h.kept rfl (fun he => hnew (List.mem_singleton.2 he.symm)) hroutine
      exact .funDecl hkept (.lambda Γ (part 0))
    | classDecl name ms =>
      have hkept := h.kept rfl (fun he => hnew (List.mem_singleton.2 he.symm)) hroutine
      refine .classDecl hkept ((Pairs.methods (false :: Γ) hj 0 fun k m hk => ?_).imp fun m m' hm => ?_)
      · simp [Node.parts, Node.children, hk]
      · exact ⟨hm.1, false, h.new_ne_self.symm, hm.2⟩
    | block ss =>
      refine .block (decide (place = r.address)) (h.body hj ?_)
      simp [Node.parts, Node.children, Node.body, Context.sequence_snd]
    | ifThen c y no =>
      obtain ⟨hy, hno⟩ := hregular
      cases no with
      | none => exact .ifThen (.expr Γ (part 0)) (.branch Γ (part 1) hy) .none
      | some n => exact .ifThen (.expr Γ (part 0)) (.branch Γ (part 1) hy) (.some (.branch Γ (part 2) (hno n rfl)))
    | whileLoop c b step =>
      obtain ⟨hb, hstep⟩ := hregular
      cases step with
      | none => exact .whileLoop (.expr Γ (part 0)) (.branch Γ (part 1) hb) .none
      | some s =>
        obtain ⟨e, rfl⟩ := hstep s rfl
        exact .whileLoop (.expr Γ (part 0)) (.branch Γ (part 1) hb) (.some (.branch Γ (part 2) rfl))
    | ret keyword value =>
      cases value with
      | none => exact .ret keyword keyword .none
      | some e => exact .ret keyword keyword (.some (.expr Γ (part 0)))
    | breakLoop keyword => exact .breakLoop ..
    | continueLoop keyword => exact .continueLoop ..
    | ofExpr e => exact hregular.elim

def coupling : Coupling where
  toLabelling := labelling h
  pairs := r.Pairs program
  alike := Pairs.alike h
  Oracle := Unit
  fits _ _ := True
  fits_mono _ h := h
  allowed _ := True
  allowed_fault _ := trivial
  allowed_endless := trivial
  escapes _ := False
  escapes_fault h := h

theorem Pairs.accesses {Γ : List Bool} {e e' : Expr} (hp : r.Pairs program Γ (.expr e) (.expr e')) :
    (coupling h).Accesses Γ (fun _ => .byDistance) .byDistance e e' := by
  obtain ⟨place, hj, he, -⟩ := hp
  obtain rfl := Node.expr.inj he
  have hnew := h.not_mem place _ hj
  cases e with
  | ref name hops =>
    intro w
    apply Coupling.read_byDistance (line_mention Γ name hops)
    cases hops with
    | none => rfl
    | some d => exact ⟨fun _ => trivial, lexeme_token fun hlexeme => hnew (List.mem_singleton.2 hlexeme.symm)⟩
  | self keyword hops =>
    intro w
    apply Coupling.read_byDistance rfl
    have hself : keyword.lexeme = selfName := h.regular place _ hj
    cases hops with
    | none => rfl
    | some d => exact ⟨fun _ => trivial, by rw [hself]; exact h.name_self.symm⟩
  | assign name hops e =>
    intro w u u' hu
    refine Coupling.write_byDistance (line_mention Γ name hops) ?_ hu
    cases hops with
    | none => rfl
    | some d => exact ⟨fun _ => trivial, h.declared fun hlexeme => hnew (List.mem_singleton.2 hlexeme.symm)⟩
  | _ => trivial

theorem Sound.runs (fuel : Nat) (w : List Bool) :
    (coupling h).Runs w [] (fun _ _ _ => True) (fun _ => runProgram .byDistance fuel program)
      (runProgram .byDistance fuel (renameProgram r true program)) :=
  Coupling.runProgram_runs (C := coupling h) (fun hp => Pairs.accesses h hp) fuel (Pairs.whole r program)

end sound

end Renaming

end LoxLang
