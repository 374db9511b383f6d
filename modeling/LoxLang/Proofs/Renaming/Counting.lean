import LoxLang.Proofs.Renaming.Tree
import LoxLang.Proofs.Tree.Binding

namespace LoxLang

variable (r : Renaming)

theorem checkInitial_rename (name : Token) (e : Expr) (place : List Nat) (Γ : List Bool) :
    Binder.checkInitial name (e.rename r false place Γ) = Binder.checkInitial name (e.rename r true place Γ) := by
  induction e using Expr.ungroup.induct generalizing place with
  | case1 e ih => exact ih (0 :: place)
  | case2 e hgroup =>
    cases e with
    | group e => exact absurd rfl (hgroup e)
    | _ => rfl

mutual

theorem Expr.bind_rename : (e : Expr) → (place : List Nat) → (Γ : List Bool) → (Δ : Context) →
    Resolved Δ (.expr e) → (e.rename r false place Γ).bind Δ.here = (e.rename r true place Γ).bind Δ.here
  | .literal _, _, _, _, _ | .ref _ _, _, _, _, _ | .stub _, _, _, _, _ => rfl
  | .self keyword hops, place, Γ, Δ, h => by
    have hclass : Δ.here.inClass = true := ((resolved_iff _ _).1 h).1.2.1
    simp only [Expr.rename, Expr.bind, hclass, if_true]
  | .assign name hops e, place, Γ, Δ, h => by
    have he := ((resolved_iff _ _).1 h).2 (Δ, .expr e) (by simp [Node.children])
    simp only [Expr.rename, Expr.bind, Expr.bind_rename e _ _ Δ he]
  | .group e, place, Γ, Δ, h | .unary _ e, place, Γ, Δ, h | .property e _, place, Γ, Δ, h => by
    have he := ((resolved_iff _ _).1 h).2 (Δ, .expr e) (by simp [Node.children])
    simp only [Expr.rename, Expr.bind, Expr.bind_rename e _ _ Δ he]
  | .binary left _ right, place, Γ, Δ, h | .logical left _ right, place, Γ, Δ, h
  | .setProperty left _ right, place, Γ, Δ, h => by
    have hleft := ((resolved_iff _ _).1 h).2 (Δ, .expr left) (by simp [Node.children])
    have hright := ((resolved_iff _ _).1 h).2 (Δ, .expr right) (by simp [Node.children])
    simp only [Expr.rename, Expr.bind, Expr.bind_rename left _ _ Δ hleft, Expr.bind_rename right _ _ Δ hright]
  | .ternary c y n _, place, Γ, Δ, h => by
    have hc := ((resolved_iff _ _).1 h).2 (Δ, .expr c) (by simp [Node.children])
    have hy := ((resolved_iff _ _).1 h).2 (Δ, .expr y) (by simp [Node.children])
    have hn := ((resolved_iff _ _).1 h).2 (Δ, .expr n) (by simp [Node.children])
    simp only [Expr.rename, Expr.bind, Expr.bind_rename c _ _ Δ hc, Expr.bind_rename y _ _ Δ hy,
      Expr.bind_rename n _ _ Δ hn]
  | .call f _ args, place, Γ, Δ, h => by
    have hf := ((resolved_iff _ _).1 h).2 (Δ, .expr f) (by simp [Node.children])
    have hargs := bindExprs_rename args place Γ 1 Δ fun e he =>
      ((resolved_iff _ _).1 h).2 (Δ, .expr e) (by simp [Node.children, he])
    simp only [Expr.rename, Expr.bind, Expr.bind_rename f _ _ Δ hf, hargs]
  | .function f, place, Γ, Δ, h => by
    have hf := ((resolved_iff _ _).1 h).2 (Δ.withRole .function, .lambda f) (by simp [Node.children])
    have hbind := Lambda.bind_rename f (0 :: place) Γ (Δ.withRole .function) hf
    simp only [Context.withRole] at hbind
    simp only [Expr.rename, Expr.bind, hbind]
  | .list es, place, Γ, Δ, h => by
    have hes := bindExprs_rename es place Γ 0 Δ fun e he =>
      ((resolved_iff _ _).1 h).2 (Δ, .expr e) (by simp [Node.children, he])
    simp only [Expr.rename, Expr.bind, hes]
  | .ofStmt t, _, _, _, h => (((resolved_iff _ _).1 h).1.1).elim

theorem bindExprs_rename : (es : List Expr) → (place : List Nat) → (Γ : List Bool) → (i : Nat) →
    (Δ : Context) → (∀ e ∈ es, Resolved Δ (.expr e)) →
    bindExprs Δ.here (renameExprs r false place Γ i es) = bindExprs Δ.here (renameExprs r true place Γ i es)
  | [], _, _, _, _, _ => rfl
  | e :: es, place, Γ, i, Δ, h => by
    rw [List.forall_mem_cons] at h
    simp only [renameExprs, bindExprs, Expr.bind_rename e _ _ Δ h.1, bindExprs_rename es place Γ (i + 1) Δ h.2]

theorem Lambda.bind_rename : (f : Lambda) → (place : List Nat) → (Γ : List Bool) → (Δ : Context) →
    Resolved Δ (.lambda f) → (f.rename r false place Γ).bind Δ.here = (f.rename r true place Γ).bind Δ.here
  | .mk params body, place, Γ, Δ, h => by
    have hbody := bindStmts_rename body place (decide (place = r.address) :: Γ) 0
      ((Δ.enter (.function ⟨params, body⟩) (paramsSeen params)).withLoop false) ((resolved_iff _ _).1 h).2
    simp only [Context.withLoop, Context.enter] at hbody
    simp only [Lambda.rename, Lambda.bind, hbody]

theorem Stmt.bind_rename : (t : Stmt) → (place : List Nat) → (Γ : List Bool) → (Δ : Context) →
    Resolved Δ (.stmt t) → (t.rename r false place Γ).bind Δ.here = (t.rename r true place Γ).bind Δ.here
  | .varDecl _ none, _, _, _, _ | .ret _ none, _, _, _, _ | .breakLoop _, _, _, _, _
  | .continueLoop _, _, _, _, _ => rfl
  | .expression e, place, Γ, Δ, h | .print e, place, Γ, Δ, h | .ret _ (some e), place, Γ, Δ, h => by
    have he := ((resolved_iff _ _).1 h).2 (Δ, .expr e) (by simp [Node.children])
    simp only [Stmt.rename, Stmt.bind, Expr.bind_rename e _ _ Δ he]
  | .varDecl name (some e), place, Γ, Δ, h => by
    have he := ((resolved_iff _ _).1 h).2 (Δ.put name.lexeme false, .expr e) (by simp [Node.children])
    have hbind := Expr.bind_rename e (0 :: place) Γ _ he
    rw [Context.here_put] at hbind
    simp only [Stmt.rename, Stmt.bind, checkInitial_rename, hbind]
  | .funDecl name f, place, Γ, Δ, h => by
    have hf := ((resolved_iff _ _).1 h).2 ((Δ.put name.lexeme true).withRole .function, .lambda f)
      (by simp [Node.children])
    have hbind := Lambda.bind_rename f (0 :: place) Γ _ hf
    simp only [Context.withRole, Context.here_put] at hbind
    simp only [Stmt.rename, Stmt.bind, hbind]
  | .classDecl name ms, place, Γ, Δ, h => by
    have hms := bindMethods_rename ms place (false :: Γ) 0
      ((Δ.put name.lexeme true).enter (.object ms) ⟨[(selfName, true)]⟩).withClass fun m hm =>
        ((resolved_iff _ _).1 h).2 _ (List.mem_map_of_mem hm)
    simp only [Context.withClass, Context.enter, Context.here_put] at hms
    simp only [Stmt.rename, Stmt.bind, hms]
  | .block ss, place, Γ, Δ, h => by
    have hss := bindStmts_rename ss place (decide (place = r.address) :: Γ) 0 (Δ.enter (.block ss) ⟨[]⟩)
      ((resolved_iff _ _).1 h).2
    simp only [Context.enter] at hss
    simp only [Stmt.rename, Stmt.bind, hss]
  | .ifThen c y none, place, Γ, Δ, h => by
    have hc := ((resolved_iff _ _).1 h).2 (Δ, .expr c) (by simp [Node.children])
    have hy := ((resolved_iff _ _).1 h).2 (Δ, .stmt y) (by simp [Node.children])
    simp only [Stmt.rename, Stmt.bind, Expr.bind_rename c _ _ Δ hc, Stmt.bind_rename y _ _ Δ hy]
  | .ifThen c y (some n), place, Γ, Δ, h => by
    have hc := ((resolved_iff _ _).1 h).2 (Δ, .expr c) (by simp [Node.children])
    have hy := ((resolved_iff _ _).1 h).2 (Δ, .stmt y) (by simp [Node.children])
    have hn := ((resolved_iff _ _).1 h).2 (Δ, .stmt n) (by simp [Node.children])
    simp only [Stmt.rename, Stmt.bind, Expr.bind_rename c _ _ Δ hc, Stmt.bind_rename y _ _ Δ hy,
      Stmt.bind_rename n _ _ Δ hn]
  | .whileLoop c b none, place, Γ, Δ, h => by
    have hc := ((resolved_iff _ _).1 h).2 (Δ, .expr c) (by simp [Node.children])
    have hb := Stmt.bind_rename b (1 :: place) Γ (Δ.withLoop true)
      (((resolved_iff _ _).1 h).2 (Δ.withLoop true, .stmt b) (by simp [Node.children]))
    simp only [Context.withLoop] at hb
    simp only [Stmt.rename, Stmt.bind, Expr.bind_rename c _ _ Δ hc, hb]
  | .whileLoop c b (some s), place, Γ, Δ, h => by
    have hc := ((resolved_iff _ _).1 h).2 (Δ, .expr c) (by simp [Node.children])
    have hb := Stmt.bind_rename b (1 :: place) Γ (Δ.withLoop true)
      (((resolved_iff _ _).1 h).2 (Δ.withLoop true, .stmt b) (by simp [Node.children]))
    have hs := Stmt.bind_rename s (2 :: place) Γ (Δ.withLoop true)
      (((resolved_iff _ _).1 h).2 (Δ.withLoop true, .stmt s) (by simp [Node.children]))
    simp only [Context.withLoop] at hb hs
    simp only [Stmt.rename, Stmt.bind, Expr.bind_rename c _ _ Δ hc, hb, hs]
  | .ofExpr e, _, _, _, h => (((resolved_iff _ _).1 h).1.1).elim

theorem bindStmts_rename : (ss : List Stmt) → (place : List Nat) → (Γ : List Bool) → (i : Nat) →
    (Δ : Context) → (∀ x ∈ Δ.sequence ss, Resolved x.1 x.2) →
    bindStmts Δ.here (renameStmts r false place Γ i ss) = bindStmts Δ.here (renameStmts r true place Γ i ss)
  | [], _, _, _, _, _ => rfl
  | t :: ts, place, Γ, i, Δ, h => by
    rw [Context.sequence, List.forall_mem_cons] at h
    have hts := bindStmts_rename ts place Γ (i + 1) (t.after Δ) h.2
    rw [Context.here_after] at hts
    simp only [renameStmts, bindStmts, Stmt.bind_rename t _ _ Δ h.1, hts]

theorem bindMethods_rename : (ms : List Method) → (place : List Nat) → (Γ : List Bool) → (i : Nat) →
    (Δ : Context) → (∀ m ∈ ms, Resolved (Δ.withRole m.role) (.lambda m.definition)) →
    bindMethods Δ.here (renameMethods r false place Γ i ms) = bindMethods Δ.here (renameMethods r true place Γ i ms)
  | [], _, _, _, _, _ => rfl
  | .mk name f :: ms, place, Γ, i, Δ, h => by
    rw [List.forall_mem_cons] at h
    have hf : (f.rename r false (i :: place) Γ).bind
          { Δ.here with role := if name.lexeme = initializerName then .initializer else .method } =
        (f.rename r true (i :: place) Γ).bind
          { Δ.here with role := if name.lexeme = initializerName then .initializer else .method } :=
      Lambda.bind_rename f (i :: place) Γ _ h.1
    simp only [renameMethods, bindMethods, hf, bindMethods_rename ms place Γ (i + 1) Δ h.2]

end

/-- A renamed program without its counts is bound to the one with them if that keeps to the rules. -/
theorem bindProgram_rename {program : List Stmt} (h : ResolvedProgram program) :
    bindProgram (renameProgram r false program) = bindProgram (renameProgram r true program) := by
  have hstmts := bindStmts_rename r program [] [] 0 {} h
  unfold bindProgram renameProgram
  rw [show bindStmts {} (renameStmts r false [] [] 0 program) = _ from hstmts]

end LoxLang
