import LoxLang.Proofs.Lines.Tree
import LoxLang.Tree.Bind

namespace LoxLang

open Stopping

def Scopes.reline (f : Int → Int) (s : Scopes) : Scopes :=
  { s with reports := s.reports.map (Report.reline f), addresses := s.addresses.map (Address.reline f) }

abbrev Rebinds {α β : Type} (f : Int → Int) (g : α → β) (p : Binder α) (p' : Binder β) : Prop :=
  Maps (Scopes.reline f) id g p p'

namespace Rebinds

variable {f : Int → Int} {α β : Type} {g : α → β} {p : Binder α} {p' : Binder β}

theorem report (t : Token) (complaint : Complaint) :
    Rebinds f id (Binder.report t complaint) (Binder.report (t.reline f) complaint) := .update fun _ => rfl

theorem declare (name : Token) : Rebinds f id (Binder.declare name) (Binder.declare (name.reline f)) := by
  rintro ⟨_ | ⟨scope, outer⟩, reports, addresses⟩
  · rfl
  · cases h : scope.contains name.lexeme <;>
    · have h' : scope.contains (name.reline f).lexeme = _ := h
      simp only [Binder.declare, Scopes.reline, get_bind, h, h']
      rfl

theorem define (name : Token) : Rebinds f id (Binder.define name) (Binder.define (name.reline f)) := by
  rintro ⟨_ | ⟨scope, outer⟩, reports, addresses⟩
  · rfl
  · cases h : scope.contains name.lexeme <;>
    · have h' : scope.contains (name.reline f).lexeme = _ := h
      simp only [Binder.define, Scopes.reline, get_bind, h, h']
      rfl

theorem inScope (scope : Bindings Bool) (hp : Rebinds f g p p') :
    Rebinds f g (Binder.inScope scope p) (Binder.inScope scope p') :=
  Maps.bind (g := id) (.update fun _ => rfl) fun _ => hp.bind fun _ =>
    Maps.bind (g := id) (.update fun _ => rfl) fun _ => .pure rfl

theorem locate (mention : Mention) (name : Token) :
    Rebinds f id (Binder.locate mention name) (Binder.locate mention (name.reline f)) := by
  refine .get fun s => ?_
  have hsame : Scopes.hops? (name.reline f).lexeme (s.reline f).levels = Scopes.hops? name.lexeme s.levels := rfl
  rw [hsame]
  cases Scopes.hops? name.lexeme s.levels with
  | none => rfl
  | some d => rfl

theorem declareAll (names : List Token) :
    Rebinds f id (Binder.declareAll names) (Binder.declareAll (names.map (Token.reline f))) := by
  induction names with
  | nil => exact .pure rfl
  | cons name names ih => exact (declare name).bind fun _ => (define name).bind fun _ => ih

theorem checkInitial (name : Token) (e : Expr) :
    Rebinds f id (Binder.checkInitial name e) (Binder.checkInitial (name.reline f) (e.reline f)) := by
  unfold Binder.checkInitial
  rw [Expr.ungroup_reline]
  cases e.ungroup with
  | ref other hops =>
    exact .get fun s => Maps.ite .rfl (report other _) (.pure rfl) s
  | _ => exact .pure rfl

theorem checkReturn (role : Role) (keyword : Token) (hasValue : Bool) :
    Rebinds f id (Binder.checkReturn role keyword hasValue) (Binder.checkReturn role (keyword.reline f) hasValue) := by
  have hlast : Rebinds f id
      (if hasValue && role = .initializer then Binder.report keyword .initializerReturn else pure ())
      (if hasValue && role = .initializer then Binder.report (keyword.reline f) .initializerReturn else pure ()) :=
    .ite .rfl (report keyword _) (.pure rfl)
  unfold Binder.checkReturn
  by_cases h : role = .none
  · rw [if_pos h, if_pos h]
    exact (report keyword _).bind fun _ => hlast
  · rw [if_neg h, if_neg h]
    exact hlast

theorem checkJump (inLoop : Bool) (keyword : Token) (word : String) :
    Rebinds f id (Binder.checkJump inLoop keyword word) (Binder.checkJump inLoop (keyword.reline f) word) :=
  .ite .rfl (report keyword _) (.pure rfl)

end Rebinds

section tree

variable (f : Int → Int)

mutual

theorem Expr.bind_reline : (e : Expr) → (here : Surroundings) →
    Rebinds f (Expr.reline f) (e.bind here) ((e.reline f).bind here)
  | .literal _, _ => .pure rfl
  | .ref name _, _ => (Rebinds.locate .ref name).map fun _ => rfl
  | .self keyword _, _ =>
    .ite .rfl ((Rebinds.locate .self keyword).map fun _ => rfl) ((Rebinds.report keyword _).map fun _ => rfl)
  | .assign name _ value, here =>
    (value.bind_reline here).bind fun _ => (Rebinds.locate .assign name).map fun _ => rfl
  | .group e, here => (e.bind_reline here).map fun _ => rfl
  | .unary _ e, here => (e.bind_reline here).map fun _ => rfl
  | .binary l _ r, here => (l.bind_reline here).bind fun _ => (r.bind_reline here).map fun _ => rfl
  | .logical l _ r, here => (l.bind_reline here).bind fun _ => (r.bind_reline here).map fun _ => rfl
  | .ternary c y n _, here =>
    (c.bind_reline here).bind fun _ => (y.bind_reline here).bind fun _ => (n.bind_reline here).map fun _ => rfl
  | .call e _ args, here => (e.bind_reline here).bind fun _ => (bindExprs_reline args here).map fun _ => rfl
  | .property o _, here => (o.bind_reline here).map fun _ => rfl
  | .setProperty o _ v, here => (v.bind_reline here).bind fun _ => (o.bind_reline here).map fun _ => rfl
  | .function d, here => (d.bind_reline { here with role := .function }).map fun _ => rfl
  | .list es, here => (bindExprs_reline es here).map fun _ => rfl
  | .ofStmt t, here => (t.bind_reline here).map fun _ => rfl
  | .stub _, _ => .throw rfl

theorem bindExprs_reline : (es : List Expr) → (here : Surroundings) →
    Rebinds f (relineExprs f) (bindExprs here es) (bindExprs here (relineExprs f es))
  | [], _ => .pure rfl
  | e :: es, here => (e.bind_reline here).bind fun _ => (bindExprs_reline es here).map fun _ => rfl

theorem Lambda.bind_reline : (d : Lambda) → (here : Surroundings) →
    Rebinds f (Lambda.reline f) (d.bind here) ((d.reline f).bind here)
  | .mk params body, here => .inScope _ ((Rebinds.declareAll params).bind fun _ =>
      (bindStmts_reline body { here with inLoop := false }).map fun _ => rfl)

theorem Stmt.bind_reline : (t : Stmt) → (here : Surroundings) →
    Rebinds f (Stmt.reline f) (t.bind here) ((t.reline f).bind here)
  | .expression e, here => (e.bind_reline here).map fun _ => rfl
  | .print e, here => (e.bind_reline here).map fun _ => rfl
  | .varDecl name none, _ => (Rebinds.declare name).bind fun _ => (Rebinds.define name).map fun _ => rfl
  | .varDecl name (some e), here =>
    (Rebinds.declare name).bind fun _ => (Rebinds.checkInitial name e).bind fun _ =>
      (e.bind_reline here).bind fun _ => (Rebinds.define name).map fun _ => rfl
  | .funDecl name d, here =>
    (Rebinds.declare name).bind fun _ => (Rebinds.define name).bind fun _ =>
      (d.bind_reline { here with role := .function }).map fun _ => rfl
  | .classDecl name ms, here =>
    (Rebinds.declare name).bind fun _ => (Rebinds.define name).bind fun _ =>
      (Rebinds.inScope _ (bindMethods_reline ms { here with inClass := true })).map fun _ => rfl
  | .block ss, here => (Rebinds.inScope _ (bindStmts_reline ss here)).map fun _ => rfl
  | .ifThen c y none, here => (c.bind_reline here).bind fun _ => (y.bind_reline here).map fun _ => rfl
  | .ifThen c y (some n), here =>
    (c.bind_reline here).bind fun _ => (y.bind_reline here).bind fun _ => (n.bind_reline here).map fun _ => rfl
  | .whileLoop c b none, here =>
    (c.bind_reline here).bind fun _ => (b.bind_reline { here with inLoop := true }).map fun _ => rfl
  | .whileLoop c b (some s), here =>
    (c.bind_reline here).bind fun _ => (b.bind_reline { here with inLoop := true }).bind fun _ =>
      (s.bind_reline { here with inLoop := true }).map fun _ => rfl
  | .ret keyword none, here => (Rebinds.checkReturn here.role keyword false).map fun _ => rfl
  | .ret keyword (some e), here =>
    (Rebinds.checkReturn here.role keyword true).bind fun _ => (e.bind_reline here).map fun _ => rfl
  | .breakLoop keyword, here => (Rebinds.checkJump here.inLoop keyword _).map fun _ => rfl
  | .continueLoop keyword, here => (Rebinds.checkJump here.inLoop keyword _).map fun _ => rfl
  | .ofExpr e, here => (e.bind_reline here).map fun _ => rfl

theorem bindStmts_reline : (ts : List Stmt) → (here : Surroundings) →
    Rebinds f (relineStmts f) (bindStmts here ts) (bindStmts here (relineStmts f ts))
  | [], _ => .pure rfl
  | t :: ts, here => (t.bind_reline here).bind fun _ => (bindStmts_reline ts here).map fun _ => rfl

theorem bindMethods_reline : (ms : List Method) → (here : Surroundings) →
    Rebinds f (relineMethods f) (bindMethods here ms) (bindMethods here (relineMethods f ms))
  | [], _ => .pure rfl
  | .mk name d :: ms, here =>
    (d.bind_reline { here with role := if name.lexeme = initializerName then .initializer else .method }).bind fun _ =>
      (bindMethods_reline ms here).map fun _ => rfl

end

/-- A program with other lines is bound to the same program with those lines. -/
theorem bindProgram_reline (ts : List Stmt) :
    (bindProgram (ts.map (Stmt.reline f))).program = (bindProgram ts).program.map (List.map (Stmt.reline f)) ∧
      (bindProgram (ts.map (Stmt.reline f))).reports = (bindProgram ts).reports.map (Report.reline f) := by
  have hbind := bindStmts_reline f ts {} {}
  rw [relineStmts_eq] at hbind
  unfold bindProgram
  cases hts : bindStmts {} ts {} with
  | ok ss s =>
    rw [hts] at hbind
    change bindStmts {} (ts.map (Stmt.reline f)) {} = _ at hbind
    simp [EStateM.run, hts, hbind, image, Scopes.reline, relineStmts_eq, Except.map]
  | error d s =>
    rw [hts] at hbind
    change bindStmts {} (ts.map (Stmt.reline f)) {} = _ at hbind
    simp [EStateM.run, hts, hbind, image, Scopes.reline, Except.map]

end tree

end LoxLang
