import LoxLang.Proofs.Bindings
import LoxLang.Proofs.Running.Related
import LoxLang.Proofs.Tree.Address

namespace LoxLang

namespace Node

/-- Two nodes of one form with the same tokens. The nodes below them may differ, and so may the scopes counted
for them. -/
inductive Alike : Node → Node → Prop
  | literal (v : Literal) : Alike (.expr (.literal v)) (.expr (.literal v))
  | ref (name : Token) (hops hops' : Option Nat) : Alike (.expr (.ref name hops)) (.expr (.ref name hops'))
  | self (keyword : Token) (hops hops' : Option Nat) :
    Alike (.expr (.self keyword hops)) (.expr (.self keyword hops'))
  | assign (name : Token) (hops hops' : Option Nat) (e e' : Expr) :
    Alike (.expr (.assign name hops e)) (.expr (.assign name hops' e'))
  | group (e e' : Expr) : Alike (.expr (.group e)) (.expr (.group e'))
  | unary (op : Token) (e e' : Expr) : Alike (.expr (.unary op e)) (.expr (.unary op e'))
  | binary (op : Token) (l r l' r' : Expr) : Alike (.expr (.binary l op r)) (.expr (.binary l' op r'))
  | logical (op : Token) (l r l' r' : Expr) : Alike (.expr (.logical l op r)) (.expr (.logical l' op r'))
  | ternary (line : Int) (c y n c' y' n' : Expr) :
    Alike (.expr (.ternary c y n line)) (.expr (.ternary c' y' n' line))
  | call (paren : Token) (f f' : Expr) (args args' : List Expr) :
    Alike (.expr (.call f paren args)) (.expr (.call f' paren args'))
  | property (name : Token) (o o' : Expr) : Alike (.expr (.property o name)) (.expr (.property o' name))
  | setProperty (name : Token) (o v o' v' : Expr) :
    Alike (.expr (.setProperty o name v)) (.expr (.setProperty o' name v'))
  | function (f f' : Lambda) : Alike (.expr (.function f)) (.expr (.function f'))
  | list (es es' : List Expr) : Alike (.expr (.list es)) (.expr (.list es'))
  | ofStmt (t t' : Stmt) : Alike (.expr (.ofStmt t)) (.expr (.ofStmt t'))
  | stub (s : Stub) : Alike (.expr (.stub s)) (.expr (.stub s))
  | lambda (params : List Token) (body body' : List Stmt) : Alike (.lambda ⟨params, body⟩) (.lambda ⟨params, body'⟩)
  | expression (e e' : Expr) : Alike (.stmt (.expression e)) (.stmt (.expression e'))
  | print (e e' : Expr) : Alike (.stmt (.print e)) (.stmt (.print e'))
  | bareDecl (name : Token) : Alike (.stmt (.varDecl name none)) (.stmt (.varDecl name none))
  | varDecl (name : Token) (e e' : Expr) :
    Alike (.stmt (.varDecl name (some e))) (.stmt (.varDecl name (some e')))
  | funDecl (name : Token) (f f' : Lambda) : Alike (.stmt (.funDecl name f)) (.stmt (.funDecl name f'))
  | classDecl (name : Token) {ms ms' : List Method} (h : ms'.map Method.name = ms.map Method.name) :
    Alike (.stmt (.classDecl name ms)) (.stmt (.classDecl name ms'))
  | block (ss ss' : List Stmt) : Alike (.stmt (.block ss)) (.stmt (.block ss'))
  | ifThen (c c' : Expr) (y y' : Stmt) : Alike (.stmt (.ifThen c y none)) (.stmt (.ifThen c' y' none))
  | ifElse (c c' : Expr) (y n y' n' : Stmt) :
    Alike (.stmt (.ifThen c y (some n))) (.stmt (.ifThen c' y' (some n')))
  | whileLoop (c c' : Expr) (b b' : Stmt) : Alike (.stmt (.whileLoop c b none)) (.stmt (.whileLoop c' b' none))
  | forLoop (c c' : Expr) (b s b' s' : Stmt) :
    Alike (.stmt (.whileLoop c b (some s))) (.stmt (.whileLoop c' b' (some s')))
  | bareReturn (keyword : Token) : Alike (.stmt (.ret keyword none)) (.stmt (.ret keyword none))
  | ret (keyword : Token) (e e' : Expr) : Alike (.stmt (.ret keyword (some e))) (.stmt (.ret keyword (some e')))
  | breakLoop (keyword : Token) : Alike (.stmt (.breakLoop keyword)) (.stmt (.breakLoop keyword))
  | continueLoop (keyword : Token) : Alike (.stmt (.continueLoop keyword)) (.stmt (.continueLoop keyword))
  | ofExpr (e e' : Expr) : Alike (.stmt (.ofExpr e)) (.stmt (.ofExpr e'))

namespace Alike

variable {j k l : Node}

theorem symm (h : j.Alike k) : k.Alike j := by
  cases h with
  | classDecl name h => exact .classDecl name h.symm
  | _ => constructor

theorem trans (h : j.Alike k) (h' : k.Alike l) : j.Alike l := by
  cases h <;> cases h' <;> constructor
  case classDecl.classDecl _ _ _ h _ h' => exact h'.trans h

theorem uncounted (j : Node) : j.Alike j.uncounted := by
  cases j with
  | expr e => cases e <;> constructor
  | lambda f => cases f; constructor
  | stmt t =>
    cases t with
    | varDecl name initial => cases initial <;> constructor
    | classDecl name ms => exact .classDecl name (by simp [Method.uncounted, Function.comp_def, Method.name])
    | ifThen c y no => cases no <;> constructor
    | whileLoop c b step => cases step <;> constructor
    | ret keyword value => cases value <;> constructor
    | _ => constructor

theorem declares {t u : Stmt} (h : Alike (.stmt t) (.stmt u)) : u.declares = t.declares := by
  cases h <;> rfl

end Alike

def SameText (j k : Node) : Prop := k.uncounted = j.uncounted

namespace SameText

variable {j k : Node}

theorem alike (h : j.SameText k) : j.Alike k :=
  (Alike.uncounted j).trans (h ▸ (Alike.uncounted k).symm)

theorem part (h : j.SameText k) (i : Nat) : Option.Rel SameText j.parts[i]? k.parts[i]? := by
  have hpart : k.uncounted.parts[i]? = j.uncounted.parts[i]? := by rw [h]
  rw [parts_uncounted, parts_uncounted, List.getElem?_map, List.getElem?_map] at hpart
  generalize j.parts[i]? = x at hpart ⊢
  generalize k.parts[i]? = y at hpart ⊢
  cases x <;> cases y <;> simp_all [SameText]

end SameText

def SameKind : Node → Node → Prop
  | .expr _, .expr _ | .lambda _, .lambda _ | .stmt _, .stmt _ => True
  | _, _ => False

def expr? : Node → Option Expr
  | .expr e => some e
  | _ => none

def lambda? : Node → Option Lambda
  | .lambda f => some f
  | _ => none

def stmt? : Node → Option Stmt
  | .stmt t => some t
  | _ => none

def exprAt (ks : List Node) (i : Nat) : Expr := (ks[i]?.bind expr?).getD default

def lambdaAt (ks : List Node) (i : Nat) : Lambda := (ks[i]?.bind lambda?).getD default

def stmtAt (ks : List Node) (i : Nat) : Stmt := (ks[i]?.bind stmt?).getD default

def withParts (ks : List Node) : Node → Node
  | .expr (.literal v) => .expr (.literal v)
  | .expr (.ref name hops) => .expr (.ref name hops)
  | .expr (.self keyword hops) => .expr (.self keyword hops)
  | .expr (.assign name hops _) => .expr (.assign name hops (exprAt ks 0))
  | .expr (.group _) => .expr (.group (exprAt ks 0))
  | .expr (.unary op _) => .expr (.unary op (exprAt ks 0))
  | .expr (.binary _ op _) => .expr (.binary (exprAt ks 0) op (exprAt ks 1))
  | .expr (.logical _ op _) => .expr (.logical (exprAt ks 0) op (exprAt ks 1))
  | .expr (.ternary _ _ _ line) => .expr (.ternary (exprAt ks 0) (exprAt ks 1) (exprAt ks 2) line)
  | .expr (.call _ paren _) => .expr (.call (exprAt ks 0) paren (ks.tail.filterMap expr?))
  | .expr (.property _ name) => .expr (.property (exprAt ks 0) name)
  | .expr (.setProperty _ name _) => .expr (.setProperty (exprAt ks 0) name (exprAt ks 1))
  | .expr (.function _) => .expr (.function (lambdaAt ks 0))
  | .expr (.list _) => .expr (.list (ks.filterMap expr?))
  | .expr (.ofStmt _) => .expr (.ofStmt (stmtAt ks 0))
  | .expr (.stub s) => .expr (.stub s)
  | .lambda (.mk params _) => .lambda ⟨params, ks.filterMap stmt?⟩
  | .stmt (.expression _) => .stmt (.expression (exprAt ks 0))
  | .stmt (.print _) => .stmt (.print (exprAt ks 0))
  | .stmt (.varDecl name none) => .stmt (.varDecl name none)
  | .stmt (.varDecl name (some _)) => .stmt (.varDecl name (some (exprAt ks 0)))
  | .stmt (.funDecl name _) => .stmt (.funDecl name (lambdaAt ks 0))
  | .stmt (.classDecl name ms) =>
    .stmt (.classDecl name (ms.mapIdx fun i m => ⟨m.name, lambdaAt ks i⟩))
  | .stmt (.block _) => .stmt (.block (ks.filterMap stmt?))
  | .stmt (.ifThen _ _ none) => .stmt (.ifThen (exprAt ks 0) (stmtAt ks 1) none)
  | .stmt (.ifThen _ _ (some _)) => .stmt (.ifThen (exprAt ks 0) (stmtAt ks 1) (some (stmtAt ks 2)))
  | .stmt (.whileLoop _ _ none) => .stmt (.whileLoop (exprAt ks 0) (stmtAt ks 1) none)
  | .stmt (.whileLoop _ _ (some _)) => .stmt (.whileLoop (exprAt ks 0) (stmtAt ks 1) (some (stmtAt ks 2)))
  | .stmt (.ret keyword none) => .stmt (.ret keyword none)
  | .stmt (.ret keyword (some _)) => .stmt (.ret keyword (some (exprAt ks 0)))
  | .stmt (.breakLoop keyword) => .stmt (.breakLoop keyword)
  | .stmt (.continueLoop keyword) => .stmt (.continueLoop keyword)
  | .stmt (.ofExpr _) => .stmt (.ofExpr (exprAt ks 0))

theorem alike_self (j : Node) : j.Alike j := (Alike.uncounted j).trans (Alike.uncounted j).symm

theorem alike_withParts (j : Node) (ks : List Node) : j.Alike (j.withParts ks) := by
  fun_cases withParts ks j
  case case23 name ms =>
    refine .classDecl name (List.ext_getElem (by simp) fun i h h' => ?_)
    simp [Method.name]
  all_goals constructor

section kinds

variable {k : Node} {ks : List Node}

theorem sameKind_expr {e : Expr} : SameKind (.expr e) k ↔ ∃ e', k = .expr e' := by
  cases k <;> simp [SameKind]

theorem sameKind_lambda {f : Lambda} : SameKind (.lambda f) k ↔ ∃ f', k = .lambda f' := by
  cases k <;> simp [SameKind]

theorem sameKind_stmt {t : Stmt} : SameKind (.stmt t) k ↔ ∃ t', k = .stmt t' := by
  cases k <;> simp [SameKind]

theorem map_exprs {es : List Expr} (h : List.Forall₂ (fun _ k => ∃ e', k = .expr e') es ks) :
    (ks.filterMap expr?).map .expr = ks := by
  induction h with
  | nil => rfl
  | cons he _ ih =>
    obtain ⟨e', rfl⟩ := he
    simp [expr?, ih]

theorem map_stmts {ts : List Stmt} (h : List.Forall₂ (fun _ k => ∃ t', k = .stmt t') ts ks) :
    (ks.filterMap stmt?).map .stmt = ks := by
  induction h with
  | nil => rfl
  | cons ht _ ih =>
    obtain ⟨t', rfl⟩ := ht
    simp [stmt?, ih]

theorem map_lambdas {ms : List Method} (h : List.Forall₂ (fun _ k => ∃ f', k = .lambda f') ms ks) :
    (ms.mapIdx fun i m => Method.mk m.name (lambdaAt ks i)).map (fun m => .lambda m.definition) = ks := by
  induction h with
  | nil => rfl
  | cons hm _ ih =>
    obtain ⟨f, rfl⟩ := hm
    simp only [List.mapIdx_cons, List.map_cons, lambdaAt, List.getElem?_cons_succ]
    exact congrArg₂ List.cons rfl ih

end kinds

theorem parts_withParts {j : Node} {ks : List Node} (h : List.Forall₂ SameKind j.parts ks) :
    (j.withParts ks).parts = ks := by
  fun_cases withParts ks j
  all_goals simp [parts, children, List.forall₂_cons_left_iff, sameKind_expr, sameKind_stmt, sameKind_lambda,
    Context.sequence_snd, List.forall₂_map_left_iff] at h
  case case10 =>
    obtain ⟨f, ks, hargs, rfl⟩ := h
    simp [parts, children, Function.comp_def, map_exprs hargs, exprAt, expr?]
  case case14 => simp [parts, children, Function.comp_def, map_exprs h]
  case case17 => simp [parts, children, Context.sequence_snd, Lambda.body, map_stmts h]
  case case23 =>
    simp only [parts, children, List.map_map, Function.comp_def]
    exact map_lambdas h
  case case24 => simp [parts, children, Context.sequence_snd, map_stmts h]
  -- the other forms have up to three parts
  all_goals first
    | (subst h; rfl)
    | (obtain ⟨a, rfl⟩ := h; rfl)
    | (obtain ⟨a, b, rfl⟩ := h; rfl)
    | (obtain ⟨a, b, c, rfl⟩ := h; rfl)

/-- What is read of two nodes is the same but for one node at or below the first, which became a new one. -/
inductive Changed (new : Node → Node → Prop) : Node → Node → Prop
  | here {j k : Node} (h : new j k) : Changed new j k
  | within {j k l m : Node} (i : Nat) (h : j.Alike k) (hl : j.parts[i]? = some l) (hm : k.parts[i]? = some m)
    (hchanged : Changed new l m) (hother : ∀ n, n ≠ i → Option.Rel SameText j.parts[n]? k.parts[n]?) :
    Changed new j k

/-- What is read of two nodes is the same but for at most one node, which became a new one. -/
def Recast (new : Node → Node → Prop) (j k : Node) : Prop := j.SameText k ∨ Changed new j k

section recast

variable {new : Node → Node → Prop} {j k : Node}

theorem Alike.sameKind (h : j.Alike k) : j.SameKind k := by
  cases h <;> trivial

theorem Changed.sameKind (hnew : ∀ j k, new j k → j.SameKind k) (h : Changed new j k) : j.SameKind k := by
  cases h with
  | here h => exact hnew j k h
  | within _ h => exact h.sameKind

theorem Recast.parts (h : Recast new j k) : new j k ∨ j.Alike k ∧ List.Forall₂ (Recast new) j.parts k.parts := by
  have hall : (∀ n : Nat, Option.Rel (Recast new) j.parts[n]? k.parts[n]?) →
      List.Forall₂ (Recast new) j.parts k.parts := fun h =>
    Slots.forall₂ (a := j.parts.toArray) (b := k.parts.toArray) fun n => by simpa using h n
  have hsame : ∀ {x y : Option Node}, Option.Rel SameText x y → Option.Rel (Recast new) x y := by
    intro x y hxy
    cases hxy with
    | none => exact .none
    | some h => exact .some (.inl h)
  obtain h | h := h
  · exact .inr ⟨h.alike, hall fun n => hsame (h.part n)⟩
  · cases h with
    | here h => exact .inl h
    | within i h hl hm hchanged hother =>
      refine .inr ⟨h, hall fun n => ?_⟩
      by_cases hn : n = i
      · subst hn
        rw [hl, hm]
        exact .some (.inr hchanged)
      · exact hsame (hother n hn)

theorem Changed.congr (hnew : ∀ {j k j' k'}, new j k → SameText j j' → SameText k k' → new j' k')
    (h : Changed new j k) : ∀ {j' k'}, SameText j j' → SameText k k' → Changed new j' k' := by
  induction h with
  | here h => exact fun hj hk => .here (hnew h hj hk)
  | @within j k l m i h hl hm _ hother ih =>
    intro j' k' hj hk
    have hl' := hj.part i
    have hm' := hk.part i
    rw [hl] at hl'
    rw [hm] at hm'
    generalize hx : j'.parts[i]? = x at hl'
    generalize hy : k'.parts[i]? = y at hm'
    cases hl' with
    | some hl' =>
      cases hm' with
      | some hm' =>
        refine .within i (hj.alike.symm.trans (h.trans hk.alike)) hx hy (ih hl' hm') fun n hn => ?_
        have hjn := hj.part n
        have hkn := hk.part n
        have hn := hother n hn
        revert hn hjn hkn
        rcases j.parts[n]? <;> rcases k.parts[n]? <;> rcases j'.parts[n]? <;> rcases k'.parts[n]? <;>
          simp_all [SameText]

end recast

end Node

def replaceAt (program : List Stmt) : List Nat → Node → List Stmt
  | [i], .stmt t => program.set i t
  | i :: k :: outer, j =>
    match nodeAt program (k :: outer) with
    | none => program
    | some around => replaceAt program (k :: outer) (around.withParts (around.parts.set i j))
  | _, _ => program

open Node

theorem forall₂_set {α : Type} {R : α → α → Prop} (hrefl : ∀ a, R a a) {as : List α} {i : Nat} {a b : α}
    (ha : as[i]? = some a) (hab : R a b) : List.Forall₂ R as (as.set i b) := by
  induction as generalizing i with
  | nil => cases ha
  | cons c cs ih =>
    cases i with
    | zero =>
      obtain rfl := Option.some.inj ha
      exact .cons hab (List.forall₂_same.2 fun c _ => hrefl c)
    | succ i => exact .cons (hrefl c) (ih ha)

theorem nodeAt_replaceAt {program : List Stmt} {address : List Nat} {j k : Node}
    (hj : nodeAt program address = some j) (hkind : j.SameKind k) :
    nodeAt (replaceAt program address k) address = some k := by
  induction address generalizing j k with
  | nil => cases hj
  | cons i outer ih =>
    cases outer with
    | nil =>
      obtain ⟨t, ht, rfl⟩ := Option.map_eq_some_iff.1 hj
      obtain ⟨u, rfl⟩ := sameKind_stmt.1 hkind
      rw [replaceAt, nodeAt, List.getElem?_set_self (List.getElem?_eq_some_iff.1 ht).1, Option.map_some]
    | cons i' outer =>
      obtain ⟨around, haround, hpart⟩ := Option.bind_eq_some_iff.1 hj
      have hparts := parts_withParts (forall₂_set (fun j => (alike_self j).sameKind) hpart hkind)
      simp only [replaceAt, haround]
      rw [nodeAt_cons (ih haround (alike_withParts _ _).sameKind), hparts,
        List.getElem?_set_self (List.getElem?_eq_some_iff.1 hpart).1]

/-- What changed at an address changed the program there. -/
theorem replaceAt_recast {new : Node → Node → Prop} (hnew : ∀ j k, new j k → j.SameKind k) {program : List Stmt}
    {address : List Nat} {j k : Node} (hj : nodeAt program address = some j) (h : Changed new j k) :
    List.Forall₂ (fun t u => Recast new (.stmt t) (.stmt u)) program (replaceAt program address k) := by
  induction address generalizing j k with
  | nil => cases hj
  | cons i outer ih =>
    have hkind := h.sameKind hnew
    cases outer with
    | nil =>
      obtain ⟨t, ht, rfl⟩ := Option.map_eq_some_iff.1 hj
      obtain ⟨u, rfl⟩ := sameKind_stmt.1 hkind
      exact forall₂_set (fun _ => .inl rfl) ht (.inr h)
    | cons i' outer =>
      obtain ⟨around, haround, hpart⟩ := Option.bind_eq_some_iff.1 hj
      simp only [replaceAt, haround]
      have hparts := parts_withParts (forall₂_set (fun j => (alike_self j).sameKind) hpart hkind)
      refine ih haround (.within i (alike_withParts _ _) hpart (m := k) ?_ h fun n hn => ?_)
      · rw [hparts, List.getElem?_set_self (List.getElem?_eq_some_iff.1 hpart).1]
      · rw [hparts, List.getElem?_set_ne hn.symm]
        cases around.parts[n]? with
        | none => exact .none
        | some l => exact .some rfl

end LoxLang
