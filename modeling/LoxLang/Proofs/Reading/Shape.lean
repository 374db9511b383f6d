import LoxLang.Proofs.Reading.TreeLaw
import LoxLang.Proofs.Token.Words
import LoxLang.Proofs.Tree.Resolution

namespace LoxLang

def Node.Looped (Δ : Context) : Node → Prop
  | .stmt (.breakLoop _) | .stmt (.continueLoop _) => Δ.here.inLoop = true
  | _ => True

def Shaped (Δ : Context) (j : Node) : Prop := Throughout (fun Δ j => j.Regular ∧ j.Looped Δ) (Δ, j)

theorem shaped_iff (Δ : Context) (j : Node) :
    Shaped Δ j ↔ (j.Regular ∧ j.Looped Δ) ∧ ∀ x ∈ j.children Δ, Shaped x.1 x.2 :=
  throughout_iff _ _

abbrev ShapedExpr (e : Expr) : Prop := ∀ Δ, Shaped Δ (.expr e)

abbrev ShapedLambda (f : Lambda) : Prop := ∀ Δ, Shaped Δ (.lambda f)

/-- The shape of a statement with a loop around it in its function, or with none. -/
abbrev ShapedStmt (loop : Bool) (t : Stmt) : Prop := ∀ Δ : Context, Δ.here.inLoop = loop → Shaped Δ (.stmt t)

structure ShapedPlain (loop : Bool) (t : Stmt) : Prop where
  shaped : ShapedStmt loop t
  declares : t.declares = []

abbrev ShapedStmts (loop : Bool) (ss : List Stmt) : Prop := ∀ t ∈ ss, ShapedStmt loop t

section shapes

variable {e l r c y n o v : Expr} {es : List Expr} {f : Lambda} {loop : Bool}

theorem ShapedExpr.literal (value : Literal) : ShapedExpr (.literal value) := fun Δ =>
  (shaped_iff _ _).2 (by simp [Node.Regular, Node.Looped, Node.children])

theorem ShapedExpr.ref {name : Token} (hops : Option Nat) (h : name.lexeme ≠ selfName) :
    ShapedExpr (.ref name hops) := fun Δ =>
  (shaped_iff _ _).2 (by simpa [Node.Regular, Node.Looped, Node.children] using h)

theorem ShapedExpr.self {keyword : Token} (hops : Option Nat) (h : keyword.lexeme = selfName) :
    ShapedExpr (.self keyword hops) := fun Δ =>
  (shaped_iff _ _).2 (by simpa [Node.Regular, Node.Looped, Node.children] using h)

theorem ShapedExpr.assign {name : Token} (hops : Option Nat) (h : name.lexeme ≠ selfName) (hv : ShapedExpr v) :
    ShapedExpr (.assign name hops v) := fun Δ =>
  (shaped_iff _ _).2 (by simpa [Node.Regular, Node.Looped, Node.children, hv Δ] using h)

theorem ShapedExpr.group (he : ShapedExpr e) : ShapedExpr (.group e) := fun Δ =>
  (shaped_iff _ _).2 (by simp [Node.Regular, Node.Looped, Node.children, he Δ])

theorem ShapedExpr.unary (op : Token) (he : ShapedExpr e) : ShapedExpr (.unary op e) := fun Δ =>
  (shaped_iff _ _).2 (by simp [Node.Regular, Node.Looped, Node.children, he Δ])

theorem ShapedExpr.binary (op : Token) (hl : ShapedExpr l) (hr : ShapedExpr r) : ShapedExpr (.binary l op r) :=
  fun Δ => (shaped_iff _ _).2 (by simp [Node.Regular, Node.Looped, Node.children, hl Δ, hr Δ])

theorem ShapedExpr.logical (op : Token) (hl : ShapedExpr l) (hr : ShapedExpr r) : ShapedExpr (.logical l op r) :=
  fun Δ => (shaped_iff _ _).2 (by simp [Node.Regular, Node.Looped, Node.children, hl Δ, hr Δ])

theorem ShapedExpr.ternary (line : Int) (hc : ShapedExpr c) (hy : ShapedExpr y) (hn : ShapedExpr n) :
    ShapedExpr (.ternary c y n line) := fun Δ =>
  (shaped_iff _ _).2 (by simp [Node.Regular, Node.Looped, Node.children, hc Δ, hy Δ, hn Δ])

theorem ShapedExpr.call (paren : Token) (he : ShapedExpr e) (hes : ∀ d ∈ es, ShapedExpr d) :
    ShapedExpr (.call e paren es) := fun Δ =>
  (shaped_iff _ _).2 (by simpa [Node.Regular, Node.Looped, Node.children, he Δ] using fun d hd => hes d hd Δ)

theorem ShapedExpr.property (name : Token) (ho : ShapedExpr o) : ShapedExpr (.property o name) := fun Δ =>
  (shaped_iff _ _).2 (by simp [Node.Regular, Node.Looped, Node.children, ho Δ])

theorem ShapedExpr.setProperty (name : Token) (ho : ShapedExpr o) (hv : ShapedExpr v) :
    ShapedExpr (.setProperty o name v) := fun Δ =>
  (shaped_iff _ _).2 (by simp [Node.Regular, Node.Looped, Node.children, ho Δ, hv Δ])

theorem ShapedExpr.function (hf : ShapedLambda f) : ShapedExpr (.function f) := fun Δ =>
  (shaped_iff _ _).2 (by simp [Node.Regular, Node.Looped, Node.children, hf (Δ.withRole .function)])

theorem ShapedExpr.list (hes : ∀ d ∈ es, ShapedExpr d) : ShapedExpr (.list es) := fun Δ =>
  (shaped_iff _ _).2 (by simpa [Node.Regular, Node.Looped, Node.children] using fun d hd => hes d hd Δ)

theorem ShapedStmts.sequence {ss : List Stmt} (h : ShapedStmts loop ss) {Δ : Context}
    (hΔ : Δ.here.inLoop = loop) : ∀ x ∈ Δ.sequence ss, Shaped x.1 x.2 := by
  induction ss generalizing Δ with
  | nil => exact List.forall_mem_nil _
  | cons t ts ih =>
    have hafter : (t.after Δ).here = Δ.here := by
      cases t with
      | varDecl | funDecl | classDecl =>
        simp only [Stmt.after, Stmt.declares, List.foldl_cons, List.foldl_nil, Context.put]
        split <;> rfl
      | _ => rfl
    obtain ⟨ht, hts⟩ := List.forall_mem_cons.1 h
    exact List.forall_mem_cons.2 ⟨ht Δ hΔ, ih hts (hafter ▸ hΔ)⟩

theorem ShapedLambda.mk {params : List Token} {body : List Stmt} (hp : ∀ p ∈ params, p.lexeme ≠ selfName)
    (hb : ShapedStmts false body) : ShapedLambda ⟨params, body⟩ :=
  fun _ => (shaped_iff _ _).2 ⟨⟨hp, trivial⟩, hb.sequence rfl⟩

theorem ShapedPlain.expression (he : ShapedExpr e) : ShapedPlain loop (.expression e) :=
  ⟨fun Δ _ => (shaped_iff _ _).2 (by simp [Node.Regular, Node.Looped, Node.children, he Δ]), rfl⟩

theorem ShapedPlain.print (he : ShapedExpr e) : ShapedPlain loop (.print e) :=
  ⟨fun Δ _ => (shaped_iff _ _).2 (by simp [Node.Regular, Node.Looped, Node.children, he Δ]), rfl⟩

theorem ShapedPlain.ret (keyword : Token) {value : Option Expr} (h : ∀ e, value = some e → ShapedExpr e) :
    ShapedPlain loop (.ret keyword value) := by
  refine ⟨fun Δ _ => (shaped_iff _ _).2 ?_, rfl⟩
  cases value with
  | none => simp [Node.Regular, Node.Looped, Node.children]
  | some e => simp [Node.Regular, Node.Looped, Node.children, h e rfl Δ]

theorem ShapedPlain.block {ss : List Stmt} (h : ShapedStmts loop ss) : ShapedPlain loop (.block ss) :=
  ⟨fun Δ hΔ => (shaped_iff _ _).2 ⟨⟨trivial, trivial⟩, h.sequence (Δ := Δ.enter (.block ss) ⟨[]⟩) hΔ⟩, rfl⟩

theorem ShapedPlain.ifThen {t : Stmt} {no : Option Stmt} (hc : ShapedExpr c) (ht : ShapedPlain loop t)
    (hn : ∀ u, no = some u → ShapedPlain loop u) : ShapedPlain loop (.ifThen c t no) := by
  refine ⟨fun Δ hΔ => (shaped_iff _ _).2 ?_, rfl⟩
  cases no with
  | none => simp [Node.Regular, Node.Looped, Node.children, hc Δ, ht.shaped Δ hΔ, ht.declares]
  | some u =>
    have hu := hn u rfl
    simp [Node.Regular, Node.Looped, Node.children, hc Δ, ht.shaped Δ hΔ, ht.declares, hu.shaped Δ hΔ,
      hu.declares]

theorem ShapedPlain.whileLoop {b : Stmt} {o : Option Expr} (hc : ShapedExpr c) (hb : ShapedPlain true b)
    (hs : ∀ d, o = some d → ShapedExpr d) : ShapedPlain loop (.whileLoop c b (o.map .expression)) := by
  refine ⟨fun Δ hΔ => (shaped_iff _ _).2 ?_, rfl⟩
  have hbody := hb.shaped (Δ.withLoop true) rfl
  cases o with
  | none => simp [Node.Regular, Node.Looped, Node.children, hc Δ, hbody, hb.declares]
  | some d =>
    have hstep := (ShapedPlain.expression (hs d rfl)).shaped (Δ.withLoop true) rfl
    simp [Node.Regular, Node.Looped, Node.children, hc Δ, hbody, hb.declares, hstep]

theorem ShapedPlain.breakLoop (keyword : Token) : ShapedPlain true (.breakLoop keyword) :=
  ⟨fun Δ hΔ => (shaped_iff _ _).2 (by simp [Node.Regular, Node.Looped, Node.children, hΔ]), rfl⟩

theorem ShapedPlain.continueLoop (keyword : Token) : ShapedPlain true (.continueLoop keyword) :=
  ⟨fun Δ hΔ => (shaped_iff _ _).2 (by simp [Node.Regular, Node.Looped, Node.children, hΔ]), rfl⟩

theorem ShapedStmt.varDecl {name : Token} {initial : Option Expr} (hname : name.lexeme ≠ selfName)
    (h : ∀ e, initial = some e → ShapedExpr e) : ShapedStmt loop (.varDecl name initial) := by
  refine fun Δ _ => (shaped_iff _ _).2 ?_
  cases initial with
  | none => simpa [Node.Regular, Node.Looped, Node.children] using hname
  | some e => simpa [Node.Regular, Node.Looped, Node.children, h e rfl (Δ.put name.lexeme false)] using hname

theorem ShapedStmt.funDecl {name : Token} (hname : name.lexeme ≠ selfName) (hf : ShapedLambda f) :
    ShapedStmt loop (.funDecl name f) :=
  fun Δ _ => (shaped_iff _ _).2 ⟨⟨hname, trivial⟩, by simpa [Node.children] using hf _⟩

theorem ShapedStmt.classDecl {name : Token} {ms : List Method} (hname : name.lexeme ≠ selfName)
    (h : ∀ m ∈ ms, ShapedLambda m.definition) : ShapedStmt loop (.classDecl name ms) := by
  refine fun Δ _ => (shaped_iff _ _).2 ⟨⟨hname, trivial⟩, fun x hx => ?_⟩
  obtain ⟨m, hm, rfl⟩ := List.mem_map.1 hx
  exact h m hm _

theorem ShapedExpr.of_property {name : Token} (h : ShapedExpr (.property o name)) : ShapedExpr o := fun Δ =>
  ((shaped_iff _ _).1 (h Δ)).2 (Δ, .expr o) (by simp [Node.children])

end shapes

/-- The rules of the grammar keep to the shape, if identifiers are not the word for the object of a method. -/
def shapedLaw {ts : List Token} (hproper : ∀ t ∈ ts, t.Proper) : TreeLaw ts where
  expr := ShapedExpr
  lambda := ShapedLambda
  stmt := ShapedStmt
  plain := ShapedPlain
  constant _ := .literal _
  literal _ _ := .literal _
  ref ht hkind := .ref none ((hproper _ ht).1 hkind)
  self ht hkind := .self none ((hproper _ ht).2 hkind)
  assign hname hv := .assign none ((shaped_iff _ _).1 (hname {})).1.1 hv
  group := .group
  unary _ _ := .unary _
  binary _ _ := .binary _
  logical _ _ := .logical _
  ternary _ := .ternary _
  call _ _ := .call _
  property _ _ := .property _
  setProperty ho := .setProperty _ ho.of_property
  function := .function
  list := .list
  definition hparams := .mk fun p hp => (hproper p (hparams p hp).1).1 (hparams p hp).2
  of_plain h := h.shaped
  expression := .expression
  print := .print
  ret _ _ := .ret _
  block := .block
  ifThen := .ifThen
  whileLoop := .whileLoop
  breakLoop _ _ := .breakLoop _
  continueLoop _ _ := .continueLoop _
  varDecl ht hkind := .varDecl ((hproper _ ht).1 hkind)
  funDecl ht hkind := .funDecl ((hproper _ ht).1 hkind)
  classDecl ht hkind h := .classDecl ((hproper _ ht).1 hkind) fun m hm => (h m hm).2

/-- What is read from proper tokens has the shape that the static rules are about, with reports or without. -/
theorem parse_shaped {ts : List Token} (hproper : ∀ t ∈ ts, t.Proper) {ss : List Stmt}
    (h : (parse ts).1 = some ss) : ShapedStmts false ss := (shapedLaw hproper).parse h

theorem Token.proper_append {body : List Token} {last : Token} (h : ∀ t ∈ body, t.kind ≠ .eof ∧ t.Proper)
    (hlast : last.kind = .eof) : ∀ t ∈ body ++ [last], t.Proper := by
  refine List.forall_mem_append.2 ⟨fun t ht => (h t ht).2, List.forall_mem_singleton.2 ?_⟩
  exact ⟨fun hkind => by simp [hlast] at hkind, fun hkind => by simp [hlast] at hkind⟩

theorem parse_scan_shaped {source : String} {ss : List Stmt} (h : (parse (Token.scan source).1).1 = some ss) :
    ShapedStmts false ss := by
  obtain ⟨body, last, hscan, hlast, hbody⟩ := Token.scan_proper source
  rw [hscan] at h
  exact parse_shaped (Token.proper_append hbody hlast) h

theorem ShapedStmt.plain {loop : Bool} {t : Stmt} (h : ShapedStmt loop t) : Node.Plain (.stmt t) :=
  Throughout.plain (fun _ _ h => h.1) (h (Context.withLoop {} loop) rfl)

theorem parse_scan_plain {source : String} {ss : List Stmt}
    (h : parse (Token.scan source).1 = (some ss, [])) : ∀ t ∈ ss, Node.Plain (.stmt t) :=
  fun t ht => (parse_scan_shaped (congrArg Prod.fst h) t ht).plain

end LoxLang
