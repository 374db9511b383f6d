import LoxLang.Report
import LoxLang.Tree

namespace LoxLang

deriving instance DecidableEq for Literal

deriving instance DecidableEq for Token

deriving instance DecidableEq for Place

deriving instance DecidableEq for Report

mutual

/-- Equality of trees as a test, which the kernel can run on the trees of whole texts. -/
def Expr.same : Expr → Expr → Bool
  | .literal v, .literal w => v = w
  | .ref t h, .ref u i => t = u && h = i
  | .self t h, .self u i => t = u && h = i
  | .assign t h e, .assign u i f => t = u && h = i && e.same f
  | .group e, .group f => e.same f
  | .unary t e, .unary u f => t = u && e.same f
  | .binary l t r, .binary m u s => l.same m && t = u && r.same s
  | .logical l t r, .logical m u s => l.same m && t = u && r.same s
  | .ternary c y n k, .ternary d z o l => c.same d && y.same z && n.same o && k = l
  | .call e t es, .call f u fs => e.same f && t = u && sameExprs es fs
  | .property e t, .property f u => e.same f && t = u
  | .setProperty e t v, .setProperty f u w => e.same f && t = u && v.same w
  | .function f, .function g => f.same g
  | .list es, .list fs => sameExprs es fs
  | .ofStmt s, .ofStmt t => s.same t
  | .stub s, .stub t => s = t
  | _, _ => false

def Lambda.same : Lambda → Lambda → Bool
  | .mk ps ss, .mk qs ts => ps = qs && sameStmts ss ts

def Method.same : Method → Method → Bool
  | .mk t f, .mk u g => t = u && f.same g

def Stmt.same : Stmt → Stmt → Bool
  | .expression e, .expression f => e.same f
  | .print e, .print f => e.same f
  | .varDecl t e, .varDecl u f => t = u && sameExpr? e f
  | .funDecl t f, .funDecl u g => t = u && f.same g
  | .classDecl t ms, .classDecl u ns => t = u && sameMethods ms ns
  | .block ss, .block ts => sameStmts ss ts
  | .ifThen e s n, .ifThen f t o => e.same f && s.same t && sameStmt? n o
  | .whileLoop e s n, .whileLoop f t o => e.same f && s.same t && sameStmt? n o
  | .ret t e, .ret u f => t = u && sameExpr? e f
  | .breakLoop t, .breakLoop u => t = u
  | .continueLoop t, .continueLoop u => t = u
  | .ofExpr e, .ofExpr f => e.same f
  | _, _ => false

def sameExprs : List Expr → List Expr → Bool
  | [], [] => true
  | e :: es, f :: fs => e.same f && sameExprs es fs
  | _, _ => false

def sameStmts : List Stmt → List Stmt → Bool
  | [], [] => true
  | s :: ss, t :: ts => s.same t && sameStmts ss ts
  | _, _ => false

def sameMethods : List Method → List Method → Bool
  | [], [] => true
  | m :: ms, n :: ns => m.same n && sameMethods ms ns
  | _, _ => false

def sameExpr? : Option Expr → Option Expr → Bool
  | none, none => true
  | some e, some f => e.same f
  | _, _ => false

def sameStmt? : Option Stmt → Option Stmt → Bool
  | none, none => true
  | some s, some t => s.same t
  | _, _ => false

end

mutual

theorem Expr.same_iff : (e f : Expr) → (e.same f = true ↔ e = f)
  | .literal v, f => by cases f <;> simp [Expr.same]
  | .ref t h, f => by cases f <;> simp [Expr.same]
  | .self t h, f => by cases f <;> simp [Expr.same]
  | .assign t h e, f => by cases f <;> simp [Expr.same, Expr.same_iff e, and_assoc]
  | .group e, f => by cases f <;> simp [Expr.same, Expr.same_iff e]
  | .unary t e, f => by cases f <;> simp [Expr.same, Expr.same_iff e]
  | .binary l t r, f => by cases f <;> simp [Expr.same, Expr.same_iff l, Expr.same_iff r, and_assoc]
  | .logical l t r, f => by cases f <;> simp [Expr.same, Expr.same_iff l, Expr.same_iff r, and_assoc]
  | .ternary c y n k, f => by
    cases f <;> simp [Expr.same, Expr.same_iff c, Expr.same_iff y, Expr.same_iff n, and_assoc]
  | .call e t es, f => by
    cases f <;> simp [Expr.same, Expr.same_iff e, sameExprs_iff es, and_assoc]
  | .property e t, f => by cases f <;> simp [Expr.same, Expr.same_iff e]
  | .setProperty e t v, f => by
    cases f <;> simp [Expr.same, Expr.same_iff e, Expr.same_iff v, and_assoc]
  | .function g, f => by cases f <;> simp [Expr.same, Lambda.same_iff g]
  | .list es, f => by cases f <;> simp [Expr.same, sameExprs_iff es]
  | .ofStmt s, f => by cases f <;> simp [Expr.same, Stmt.same_iff s]
  | .stub s, f => by cases f <;> simp [Expr.same]

theorem Lambda.same_iff : (f g : Lambda) → (f.same g = true ↔ f = g)
  | .mk ps ss, .mk qs ts => by simp [Lambda.same, sameStmts_iff ss]

theorem Method.same_iff : (m n : Method) → (m.same n = true ↔ m = n)
  | .mk t f, .mk u g => by simp [Method.same, Lambda.same_iff f]

theorem Stmt.same_iff : (s t : Stmt) → (s.same t = true ↔ s = t)
  | .expression e, t => by cases t <;> simp [Stmt.same, Expr.same_iff e]
  | .print e, t => by cases t <;> simp [Stmt.same, Expr.same_iff e]
  | .varDecl n e, t => by cases t <;> simp [Stmt.same, sameExpr?_iff e]
  | .funDecl n f, t => by cases t <;> simp [Stmt.same, Lambda.same_iff f]
  | .classDecl n ms, t => by cases t <;> simp [Stmt.same, sameMethods_iff ms]
  | .block ss, t => by cases t <;> simp [Stmt.same, sameStmts_iff ss]
  | .ifThen e s n, t => by
    cases t <;> simp [Stmt.same, Expr.same_iff e, Stmt.same_iff s, sameStmt?_iff n, and_assoc]
  | .whileLoop e s n, t => by
    cases t <;> simp [Stmt.same, Expr.same_iff e, Stmt.same_iff s, sameStmt?_iff n, and_assoc]
  | .ret k e, t => by cases t <;> simp [Stmt.same, sameExpr?_iff e]
  | .breakLoop k, t => by cases t <;> simp [Stmt.same]
  | .continueLoop k, t => by cases t <;> simp [Stmt.same]
  | .ofExpr e, t => by cases t <;> simp [Stmt.same, Expr.same_iff e]

theorem sameExprs_iff : (es fs : List Expr) → (sameExprs es fs = true ↔ es = fs)
  | [], fs => by cases fs <;> simp [sameExprs]
  | e :: es, fs => by cases fs <;> simp [sameExprs, Expr.same_iff e, sameExprs_iff es]

theorem sameStmts_iff : (ss ts : List Stmt) → (sameStmts ss ts = true ↔ ss = ts)
  | [], ts => by cases ts <;> simp [sameStmts]
  | s :: ss, ts => by cases ts <;> simp [sameStmts, Stmt.same_iff s, sameStmts_iff ss]

theorem sameMethods_iff : (ms ns : List Method) → (sameMethods ms ns = true ↔ ms = ns)
  | [], ns => by cases ns <;> simp [sameMethods]
  | m :: ms, ns => by cases ns <;> simp [sameMethods, Method.same_iff m, sameMethods_iff ms]

theorem sameExpr?_iff : (e f : Option Expr) → (sameExpr? e f = true ↔ e = f)
  | none, f => by cases f <;> simp [sameExpr?]
  | some e, f => by cases f <;> simp [sameExpr?, Expr.same_iff e]

theorem sameStmt?_iff : (s t : Option Stmt) → (sameStmt? s t = true ↔ s = t)
  | none, t => by cases t <;> simp [sameStmt?]
  | some s, t => by cases t <;> simp [sameStmt?, Stmt.same_iff s]

end

instance : DecidableEq Expr := fun e f => decidable_of_iff _ (e.same_iff f)

instance : DecidableEq Stmt := fun s t => decidable_of_iff _ (s.same_iff t)

end LoxLang
