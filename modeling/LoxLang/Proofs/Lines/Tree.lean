import LoxLang.Proofs.Lines.Image
import LoxLang.Report
import LoxLang.Tree.Scopes

namespace LoxLang

variable (f : Int → Int)

def Token.reline (t : Token) : Token := { t with line := f t.line }

@[simp]
theorem Token.kind_reline (t : Token) : (t.reline f).kind = t.kind := rfl

@[simp]
theorem Token.lexeme_reline (t : Token) : (t.reline f).lexeme = t.lexeme := rfl

@[simp]
theorem Token.literal_reline (t : Token) : (t.reline f).literal = t.literal := rfl

mutual

def Expr.reline : Expr → Expr
  | .literal v => .literal v
  | .ref name hops => .ref (name.reline f) hops
  | .self keyword hops => .self (keyword.reline f) hops
  | .assign name hops e => .assign (name.reline f) hops e.reline
  | .group e => .group e.reline
  | .unary op e => .unary (op.reline f) e.reline
  | .binary l op r => .binary l.reline (op.reline f) r.reline
  | .logical l op r => .logical l.reline (op.reline f) r.reline
  | .ternary c y n line => .ternary c.reline y.reline n.reline (f line)
  | .call e paren args => .call e.reline (paren.reline f) (relineExprs args)
  | .property o name => .property o.reline (name.reline f)
  | .setProperty o name v => .setProperty o.reline (name.reline f) v.reline
  | .function d => .function d.reline
  | .list es => .list (relineExprs es)
  | .ofStmt t => .ofStmt t.reline
  | .stub s => .stub s

def relineExprs : List Expr → List Expr
  | [] => []
  | e :: es => e.reline :: relineExprs es

def Lambda.reline : Lambda → Lambda
  | .mk params body => ⟨params.map (Token.reline f), relineStmts body⟩

def Stmt.reline : Stmt → Stmt
  | .expression e => .expression e.reline
  | .print e => .print e.reline
  | .varDecl name none => .varDecl (name.reline f) none
  | .varDecl name (some e) => .varDecl (name.reline f) (some e.reline)
  | .funDecl name d => .funDecl (name.reline f) d.reline
  | .classDecl name ms => .classDecl (name.reline f) (relineMethods ms)
  | .block ss => .block (relineStmts ss)
  | .ifThen c y none => .ifThen c.reline y.reline none
  | .ifThen c y (some n) => .ifThen c.reline y.reline (some n.reline)
  | .whileLoop c b none => .whileLoop c.reline b.reline none
  | .whileLoop c b (some s) => .whileLoop c.reline b.reline (some s.reline)
  | .ret keyword none => .ret (keyword.reline f) none
  | .ret keyword (some e) => .ret (keyword.reline f) (some e.reline)
  | .breakLoop keyword => .breakLoop (keyword.reline f)
  | .continueLoop keyword => .continueLoop (keyword.reline f)
  | .ofExpr e => .ofExpr e.reline

def relineStmts : List Stmt → List Stmt
  | [] => []
  | t :: ts => t.reline :: relineStmts ts

def relineMethods : List Method → List Method
  | [] => []
  | .mk name d :: ms => ⟨name.reline f, d.reline⟩ :: relineMethods ms

end

def Method.reline (m : Method) : Method := ⟨m.name.reline f, m.definition.reline f⟩

theorem relineExprs_eq (es : List Expr) : relineExprs f es = es.map (Expr.reline f) := by
  induction es with
  | nil => rfl
  | cons e es ih => simp [relineExprs, ih]

theorem relineStmts_eq (ts : List Stmt) : relineStmts f ts = ts.map (Stmt.reline f) := by
  induction ts with
  | nil => rfl
  | cons t ts ih => simp [relineStmts, ih]

theorem relineMethods_eq (ms : List Method) : relineMethods f ms = ms.map (Method.reline f) := by
  induction ms with
  | nil => rfl
  | cons m ms ih =>
    obtain ⟨name, d⟩ := m
    simp [relineMethods, ih, Method.reline, Method.name, Method.definition]

@[simp]
theorem Lambda.params_reline (d : Lambda) : (d.reline f).params = d.params.map (Token.reline f) := by
  cases d
  rfl

@[simp]
theorem Lambda.body_reline (d : Lambda) : (d.reline f).body = d.body.map (Stmt.reline f) := by
  cases d
  exact relineStmts_eq f _

section identity

theorem Token.reline_id : Token.reline id = id := rfl

mutual

theorem Expr.reline_id : (e : Expr) → e.reline id = e
  | .literal _ | .ref _ _ | .self _ _ | .stub _ => rfl
  | .assign _ _ e => by rw [Expr.reline, e.reline_id]; rfl
  | .group e => by rw [Expr.reline, e.reline_id]
  | .unary _ e => by rw [Expr.reline, e.reline_id]; rfl
  | .binary l _ r | .logical l _ r => by rw [Expr.reline, l.reline_id, r.reline_id]; rfl
  | .ternary c y n _ => by rw [Expr.reline, c.reline_id, y.reline_id, n.reline_id]; rfl
  | .call e _ args => by rw [Expr.reline, e.reline_id, relineExprs_id args]; rfl
  | .property o _ => by rw [Expr.reline, o.reline_id]; rfl
  | .setProperty o _ v => by rw [Expr.reline, o.reline_id, v.reline_id]; rfl
  | .function d => by rw [Expr.reline, d.reline_id]
  | .list es => by rw [Expr.reline, relineExprs_id es]
  | .ofStmt t => by rw [Expr.reline, t.reline_id]

theorem relineExprs_id : (es : List Expr) → relineExprs id es = es
  | [] => rfl
  | e :: es => by rw [relineExprs, e.reline_id, relineExprs_id es]

theorem Lambda.reline_id : (d : Lambda) → d.reline id = d
  | .mk params body => by rw [Lambda.reline, Token.reline_id, List.map_id, relineStmts_id body]

theorem Stmt.reline_id : (t : Stmt) → t.reline id = t
  | .expression e | .print e | .ofExpr e => by rw [Stmt.reline, e.reline_id]
  | .varDecl _ none | .ret _ none | .breakLoop _ | .continueLoop _ => rfl
  | .varDecl _ (some e) | .ret _ (some e) => by rw [Stmt.reline, e.reline_id]; rfl
  | .funDecl _ d => by rw [Stmt.reline, d.reline_id]; rfl
  | .classDecl _ ms => by rw [Stmt.reline, relineMethods_id ms]; rfl
  | .block ss => by rw [Stmt.reline, relineStmts_id ss]
  | .ifThen c y none => by rw [Stmt.reline, c.reline_id, y.reline_id]
  | .ifThen c y (some n) => by rw [Stmt.reline, c.reline_id, y.reline_id, n.reline_id]
  | .whileLoop c b none => by rw [Stmt.reline, c.reline_id, b.reline_id]
  | .whileLoop c b (some s) => by rw [Stmt.reline, c.reline_id, b.reline_id, s.reline_id]

theorem relineStmts_id : (ts : List Stmt) → relineStmts id ts = ts
  | [] => rfl
  | t :: ts => by rw [relineStmts, t.reline_id, relineStmts_id ts]

theorem relineMethods_id : (ms : List Method) → relineMethods id ms = ms
  | [] => rfl
  | .mk _ d :: ms => by rw [relineMethods, d.reline_id, relineMethods_id ms]; rfl

end

end identity

theorem Expr.ungroup_reline (e : Expr) : (e.reline f).ungroup = e.ungroup.reline f := by
  induction e using Expr.ungroup.induct with
  | case1 e ih => simpa only [Expr.reline, Expr.ungroup] using ih
  | case2 e h => cases e <;> first | rfl | exact absurd rfl (h _)

def Place.reline : Place → Place
  | .line n => .line (f n)
  | .token t => .token (t.reline f)

def Report.reline (r : Report) : Report := ⟨r.place.reline f, r.complaint⟩

theorem Report.reline_id : Report.reline id = id := by
  funext r
  obtain ⟨_ | _, complaint⟩ := r <;> rfl

def Address.reline (a : Address) : Address := { a with name := a.name.reline f }

end LoxLang
