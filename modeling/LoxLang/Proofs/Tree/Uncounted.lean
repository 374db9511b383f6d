import LoxLang.Proofs.Tree.Resolution

namespace LoxLang

mutual

def Expr.uncounted : Expr → Expr
  | .literal v => .literal v
  | .ref name _ => .ref name none
  | .self keyword _ => .self keyword none
  | .assign name _ e => .assign name none e.uncounted
  | .group e => .group e.uncounted
  | .unary op e => .unary op e.uncounted
  | .binary left op right => .binary left.uncounted op right.uncounted
  | .logical left op right => .logical left.uncounted op right.uncounted
  | .ternary c y n line => .ternary c.uncounted y.uncounted n.uncounted line
  | .call f paren args => .call f.uncounted paren (uncountedExprs args)
  | .property o name => .property o.uncounted name
  | .setProperty o name v => .setProperty o.uncounted name v.uncounted
  | .function f => .function f.uncounted
  | .list es => .list (uncountedExprs es)
  | .ofStmt t => .ofStmt t.uncounted
  | .stub s => .stub s

def uncountedExprs : List Expr → List Expr
  | [] => []
  | e :: es => e.uncounted :: uncountedExprs es

def Lambda.uncounted : Lambda → Lambda
  | .mk params body => ⟨params, uncountedStmts body⟩

def Stmt.uncounted : Stmt → Stmt
  | .expression e => .expression e.uncounted
  | .print e => .print e.uncounted
  | .varDecl name none => .varDecl name none
  | .varDecl name (some e) => .varDecl name (some e.uncounted)
  | .funDecl name f => .funDecl name f.uncounted
  | .classDecl name ms => .classDecl name (uncountedMethods ms)
  | .block ss => .block (uncountedStmts ss)
  | .ifThen c y none => .ifThen c.uncounted y.uncounted none
  | .ifThen c y (some n) => .ifThen c.uncounted y.uncounted (some n.uncounted)
  | .whileLoop c b none => .whileLoop c.uncounted b.uncounted none
  | .whileLoop c b (some s) => .whileLoop c.uncounted b.uncounted (some s.uncounted)
  | .ret keyword none => .ret keyword none
  | .ret keyword (some e) => .ret keyword (some e.uncounted)
  | .breakLoop keyword => .breakLoop keyword
  | .continueLoop keyword => .continueLoop keyword
  | .ofExpr e => .ofExpr e.uncounted

def uncountedStmts : List Stmt → List Stmt
  | [] => []
  | t :: ts => t.uncounted :: uncountedStmts ts

def uncountedMethods : List Method → List Method
  | [] => []
  | .mk name f :: ms => ⟨name, f.uncounted⟩ :: uncountedMethods ms

end

def Node.uncounted : Node → Node
  | .expr e => .expr e.uncounted
  | .lambda f => .lambda f.uncounted
  | .stmt t => .stmt t.uncounted

def Method.uncounted (m : Method) : Method := ⟨m.name, m.definition.uncounted⟩

@[simp]
theorem uncountedExprs_eq (es : List Expr) : uncountedExprs es = es.map Expr.uncounted := by
  induction es with
  | nil => rfl
  | cons e es ih => rw [uncountedExprs, ih, List.map_cons]

@[simp]
theorem uncountedStmts_eq (ss : List Stmt) : uncountedStmts ss = ss.map Stmt.uncounted := by
  induction ss with
  | nil => rfl
  | cons t ts ih => rw [uncountedStmts, ih, List.map_cons]

@[simp]
theorem uncountedMethods_eq (ms : List Method) : uncountedMethods ms = ms.map Method.uncounted := by
  induction ms with
  | nil => rfl
  | cons m ms ih =>
    obtain ⟨name, f⟩ := m
    rw [uncountedMethods, ih, List.map_cons]
    rfl

@[simp]
theorem Stmt.declares_uncounted (t : Stmt) : t.uncounted.declares = t.declares := by
  cases t with
  | varDecl name initial => cases initial <;> rfl
  | ifThen c y no => cases no <;> rfl
  | whileLoop c b step => cases step <;> rfl
  | ret keyword value => cases value <;> rfl
  | _ => rfl

theorem Stmt.declares_eq_of_uncounted {t u : Stmt} (h : t.uncounted = u.uncounted) : t.declares = u.declares := by
  rw [← t.declares_uncounted, h, u.declares_uncounted]

@[simp]
theorem Stmt.uncounted_expression (t : Stmt) :
    (∃ e, t.uncounted = .expression e) ↔ ∃ e, t = .expression e := by
  cases t with
  | expression e => exact ⟨fun _ => ⟨e, rfl⟩, fun _ => ⟨e.uncounted, rfl⟩⟩
  | varDecl name initial => cases initial <;> simp [Stmt.uncounted]
  | ifThen c y no => cases no <;> simp [Stmt.uncounted]
  | whileLoop c b step => cases step <;> simp [Stmt.uncounted]
  | ret keyword value => cases value <;> simp [Stmt.uncounted]
  | _ => simp [Stmt.uncounted]

@[simp]
theorem Expr.bare?_uncounted (e : Expr) : e.uncounted.bare? = e.bare? := by
  unfold Expr.bare?
  induction e using Expr.ungroup.induct with
  | case1 e ih => exact ih
  | case2 e hgroup =>
    cases e with
    | group e => exact absurd rfl (hgroup e)
    | _ => rfl

theorem Expr.bare?_eq_of_uncounted {e d : Expr} (h : e.uncounted = d.uncounted) : e.bare? = d.bare? := by
  rw [← e.bare?_uncounted, h, d.bare?_uncounted]

theorem Node.parts_uncounted (j : Node) : j.uncounted.parts = j.parts.map Node.uncounted := by
  unfold parts
  cases j with
  | expr e => cases e <;> simp [Node.uncounted, Expr.uncounted, Node.children, Function.comp_def]
  | lambda f =>
    obtain ⟨params, body⟩ := f
    simp [Node.uncounted, Lambda.uncounted, Node.children, Context.sequence_snd, Lambda.body, Function.comp_def]
  | stmt t =>
    cases t with
    | varDecl name initial => cases initial <;> simp [Node.uncounted, Stmt.uncounted, Node.children]
    | ifThen c y no => cases no <;> simp [Node.uncounted, Stmt.uncounted, Node.children]
    | whileLoop c b step => cases step <;> simp [Node.uncounted, Stmt.uncounted, Node.children]
    | ret keyword value => cases value <;> simp [Node.uncounted, Stmt.uncounted, Node.children]
    | _ => simp [Node.uncounted, Stmt.uncounted, Node.children, Context.sequence_snd, Function.comp_def,
        Method.uncounted, Method.definition]

theorem Node.regular_uncounted (j : Node) : j.uncounted.Regular ↔ j.Regular := by
  cases j with
  | expr e => cases e <;> rfl
  | lambda f =>
    obtain ⟨params, body⟩ := f
    rfl
  | stmt t =>
    cases t with
    | varDecl name initial => cases initial <;> rfl
    | ifThen c y no => cases no <;> simp [Node.uncounted, Stmt.uncounted, Regular]
    | whileLoop c b step => cases step <;> simp [Node.uncounted, Stmt.uncounted, Regular]
    | ret keyword value => cases value <;> rfl
    | _ => rfl

theorem Node.plain_uncounted (j : Node) : j.uncounted.Plain ↔ j.Plain := by
  constructor
  · intro h k hk
    rw [← regular_uncounted]
    refine h _ ?_
    induction hk with
    | refl => exact .refl
    | @tail a b _ hb ih =>
      refine ih.tail ?_
      rw [parts_uncounted]
      exact List.mem_map_of_mem hb
  · intro h l hl
    have hbelow : ∃ k, Relation.ReflTransGen (fun a b => b ∈ Node.parts a) j k ∧ l = k.uncounted := by
      induction hl with
      | refl => exact ⟨j, .refl, rfl⟩
      | tail _ hb ih =>
        obtain ⟨k, hk, rfl⟩ := ih
        rw [parts_uncounted, List.mem_map] at hb
        obtain ⟨i, hi, rfl⟩ := hb
        exact ⟨i, hk.tail hi, rfl⟩
    obtain ⟨k, hk, rfl⟩ := hbelow
    exact (regular_uncounted k).2 (h k hk)

theorem Node.plain_of_uncounted {j k : Node} (h : k.uncounted = j.uncounted) (hj : j.Plain) : k.Plain := by
  rw [← k.plain_uncounted, h, j.plain_uncounted]
  exact hj

section shapes

theorem Node.uncounted_eq_stmt {j : Node} {t : Stmt} (h : j.uncounted = .stmt t) :
    ∃ u, j = .stmt u ∧ u.uncounted = t := by
  cases j with
  | stmt u => exact ⟨u, rfl, Node.stmt.inj h⟩
  | _ => cases h

theorem Stmt.uncounted_eq_block {t : Stmt} {ss : List Stmt} (h : t.uncounted = .block ss) :
    ∃ ts, t = .block ts ∧ ts.map Stmt.uncounted = ss := by
  revert h
  fun_cases Stmt.uncounted t <;> simp [uncountedStmts_eq]

theorem Stmt.uncounted_eq_whileLoop {t : Stmt} {c : Expr} {b : Stmt} (h : t.uncounted = .whileLoop c b none) :
    ∃ c' b', t = .whileLoop c' b' none ∧ c'.uncounted = c ∧ b'.uncounted = b := by
  revert h
  fun_cases Stmt.uncounted t <;> simp

theorem Stmt.uncounted_eq_forLoop {t : Stmt} {c : Expr} {b s : Stmt} (h : t.uncounted = .whileLoop c b (some s)) :
    ∃ c' b' s', t = .whileLoop c' b' (some s') ∧ c'.uncounted = c ∧ b'.uncounted = b ∧ s'.uncounted = s := by
  revert h
  fun_cases Stmt.uncounted t <;> simp

end shapes

end LoxLang
