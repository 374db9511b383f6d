import LoxLang.Proofs.Reading.Tracks

namespace LoxLang

/-- A chain of conditionals that is read up to a place, with the line on which its first selector ends. -/
inductive Reader.Chained (ts : List Token) : Int → Expr → Cursor → Prop
  | first {bodies : List Body} {n : Nat} {c d : Cursor} {e : Expr} {last : Token} (hc : c.Stands ts bodies)
      (he : Grammar.equality n (unary n) c = .ok e d) (hlast : previous d = .ok last d) : Chained ts last.line e d
  | more {line : Int} {s y n : Expr} {c d : Cursor} {question : Token} {us : List Token} (hs : Chained ts line s c)
      (hquestion : question.kind = .question) (hc : c.rest = question :: us) (hd : d.rest <:+ us) :
    Chained ts line (.ternary s y n line) d

def Reader.Selects (ts : List Token) (line : Int) (s : Expr) : Prop :=
  ∃ c question us, Chained ts line s c ∧ question.kind = .question ∧ c.rest = question :: us

/-- A property of trees that the grammar's rules keep from the tokens of a text. A statement has it with a loop
around in its function, or with none; `plain` is for the statements that are no declarations. -/
structure TreeLaw (ts : List Token) where
  expr : Expr → Prop
  lambda : Lambda → Prop
  stmt : Bool → Stmt → Prop
  plain : Bool → Stmt → Prop
  constant {v : Literal} (h : v = .nil ∨ ∃ b, v = .bool b) : expr (.literal v)
  literal {t : Token} (ht : t ∈ ts) (hkind : t.kind = .number ∨ t.kind = .string) :
    expr (.literal (t.literal.getD .nil))
  ref {t : Token} (ht : t ∈ ts) (hkind : t.kind = .identifier) : expr (.ref t none)
  self {t : Token} (ht : t ∈ ts) (hkind : t.kind = .kwThis) : expr (.self t none)
  assign {name : Token} {hops : Option Nat} {v : Expr} (hname : expr (.ref name hops)) (hv : expr v) :
    expr (.assign name none v)
  group {e : Expr} (he : expr e) : expr (.group e)
  unary {op : Token} {e : Expr} (ht : op ∈ ts) (hkind : op.kind ∈ [Token.Kind.bang, .minus]) (he : expr e) :
    expr (.unary op e)
  binary {l r : Expr} {op : Token} (ht : op ∈ ts) (hkind : op.kind ∈ Grammar.binaryLevels.flatten) (hl : expr l)
    (hr : expr r) : expr (.binary l op r)
  logical {l r : Expr} {op : Token} (ht : op ∈ ts) (hkind : op.kind ∈ [Token.Kind.kwOr, .kwAnd]) (hl : expr l)
    (hr : expr r) : expr (.logical l op r)
  ternary {c y n : Expr} {line : Int} (hs : Reader.Selects ts line c) (hc : expr c) (hy : expr y) (hn : expr n) :
    expr (.ternary c y n line)
  call {e : Expr} {es : List Expr} {paren : Token} (ht : paren ∈ ts) (hkind : paren.kind = .rightParen) (he : expr e)
    (hes : ∀ d ∈ es, expr d) : expr (.call e paren es)
  property {o : Expr} {name : Token} (ht : name ∈ ts) (hkind : name.kind = .identifier) (ho : expr o) :
    expr (.property o name)
  setProperty {o v : Expr} {name : Token} (ho : expr (.property o name)) (hv : expr v) : expr (.setProperty o name v)
  function {f : Lambda} (hf : lambda f) : expr (.function f)
  list {es : List Expr} (hes : ∀ d ∈ es, expr d) : expr (.list es)
  definition {params : List Token} {body : List Stmt} (hparams : ∀ p ∈ params, p ∈ ts ∧ p.kind = .identifier)
    (hbody : ∀ t ∈ body, stmt false t) : lambda ⟨params, body⟩
  of_plain {loop : Bool} {t : Stmt} (h : plain loop t) : stmt loop t
  expression {loop : Bool} {e : Expr} (he : expr e) : plain loop (.expression e)
  print {loop : Bool} {e : Expr} (he : expr e) : plain loop (.print e)
  ret {loop : Bool} {keyword : Token} {value : Option Expr} (ht : keyword ∈ ts) (hkind : keyword.kind = .kwReturn)
    (h : ∀ e, value = some e → expr e) : plain loop (.ret keyword value)
  block {loop : Bool} {ss : List Stmt} (h : ∀ t ∈ ss, stmt loop t) : plain loop (.block ss)
  ifThen {loop : Bool} {c : Expr} {t : Stmt} {no : Option Stmt} (hc : expr c) (ht : plain loop t)
    (hn : ∀ u, no = some u → plain loop u) : plain loop (.ifThen c t no)
  whileLoop {loop : Bool} {c : Expr} {b : Stmt} {step : Option Expr} (hc : expr c) (hb : plain true b)
    (hs : ∀ e, step = some e → expr e) : plain loop (.whileLoop c b (step.map .expression))
  breakLoop {keyword : Token} (ht : keyword ∈ ts) (hkind : keyword.kind = .kwBreak) : plain true (.breakLoop keyword)
  continueLoop {keyword : Token} (ht : keyword ∈ ts) (hkind : keyword.kind = .kwContinue) :
    plain true (.continueLoop keyword)
  varDecl {loop : Bool} {name : Token} {initial : Option Expr} (ht : name ∈ ts) (hkind : name.kind = .identifier)
    (h : ∀ e, initial = some e → expr e) : stmt loop (.varDecl name initial)
  funDecl {loop : Bool} {name : Token} {f : Lambda} (ht : name ∈ ts) (hkind : name.kind = .identifier) (hf : lambda f) :
    stmt loop (.funDecl name f)
  classDecl {loop : Bool} {name : Token} {ms : List Method} (ht : name ∈ ts) (hkind : name.kind = .identifier)
    (h : ∀ m ∈ ms, (m.name ∈ ts ∧ m.name.kind = .identifier) ∧ lambda m.definition) : stmt loop (.classDecl name ms)

section readers

variable {made : List Report} {ts : List Token} {bodies : List Body} {L : TreeLaw ts}

namespace Grammar

variable {expression expression' conditional conditional' unary unary' operand operand' : Reader Expr}
  {statement statement' loopBody loopBody' : Reader Stmt} {block block' : Reader (List Stmt)}
  {join : Expr → Token → Expr → Expr}

section expressions

theorem accept_some {kind : Token.Kind} {t : Token} {c d : Cursor} (h : Reader.accept kind c = .ok (some t) d) :
    t.kind = kind ∧ c.rest = t :: d.rest := by
  obtain ⟨before, _ | ⟨u, rest⟩, loops, reports⟩ := c
  · cases h
  · by_cases hu : u.kind ≠ .eof ∧ decide (u.kind = kind) = true
    · have htaken : Reader.accept kind ⟨before, u :: rest, loops, reports⟩ =
          .ok (some u) ⟨u :: before, rest, loops, reports⟩ := if_pos hu
      rw [htaken] at h
      cases h
      exact ⟨of_decide_eq_true hu.2, rfl⟩
    · have hleft : Reader.accept kind ⟨before, u :: rest, loops, reports⟩ =
          .ok none ⟨before, u :: rest, loops, reports⟩ := if_neg hu
      rw [hleft] at h
      cases h

theorem previous_stays {t : Token} {c d : Cursor} (h : Reader.previous c = .ok t d) : d = c := by
  unfold Reader.previous at h
  split at h
  · cases h
    rfl
  · cases h

theorem leftTail_tracks {ops : List Token.Kind}
    (hjoin : ∀ {l r op}, op ∈ ts → op.kind ∈ ops → L.expr l → L.expr r → L.expr (join l op r))
    (ho : Tracks made ts bodies operand operand' L.expr) (n : Nat) {left : Expr} (hl : L.expr left) :
    Tracks made ts bodies (leftTail ops join operand n left) (leftTail ops join operand' n left) L.expr := by
  induction n generalizing left with
  | zero => exact .stuck
  | succ n ih =>
    refine (Tracks.take? _).bind fun op hop => ?_
    cases op with
    | none => exact .pure hl
    | some op =>
      obtain ⟨ht, hkind⟩ := hop op rfl
      exact ho.bind fun right hr => ih (hjoin ht (by simpa using hkind) hl hr)

theorem leftAssoc_tracks {ops : List Token.Kind} (n : Nat)
    (hjoin : ∀ {l r op}, op ∈ ts → op.kind ∈ ops → L.expr l → L.expr r → L.expr (join l op r))
    (ho : Tracks made ts bodies operand operand' L.expr) :
    Tracks made ts bodies (leftAssoc n ops join operand) (leftAssoc n ops join operand') L.expr :=
  ho.bind fun _ hfirst => leftTail_tracks hjoin ho n hfirst

theorem equality_tracks (n : Nat) (hu : Tracks made ts bodies unary unary' L.expr) :
    Tracks made ts bodies (equality n unary) (equality n unary') L.expr := by
  unfold equality
  suffices h : ∀ levels : List (List Token.Kind), (∀ ops ∈ levels, ops ∈ binaryLevels) →
      Tracks made ts bodies (levels.foldr (fun ops operand => leftAssoc n ops .binary operand) unary)
        (levels.foldr (fun ops operand => leftAssoc n ops .binary operand) unary') L.expr from h _ fun _ => id
  intro levels hlevels
  induction levels with
  | nil => exact hu
  | cons ops levels ih =>
    obtain ⟨hops, hlevels⟩ := List.forall_mem_cons.1 hlevels
    exact leftAssoc_tracks n (fun ht hkind => L.binary ht (List.mem_flatten_of_mem hops hkind)) (ih hlevels)

theorem conditionalTail_tracked {equality equality' : Reader Expr} (he : Tracks made ts bodies equality equality' L.expr)
    (hc : Tracks made ts bodies conditional conditional' L.expr) {line : Int} (n : Nat) {selector : Expr} {d : Cursor}
    (hd : d.Stands ts bodies) (hchain : Reader.Chained ts line selector d) (hs : L.expr selector) :
    Tracked made d L.expr (conditionalTail equality conditional line n selector d)
      (conditionalTail equality' conditional' line n selector d) := by
  induction n generalizing selector d with
  | zero => exact .error (.refl d)
  | succ n ih =>
    refine (Tracks.accept .question d hd).bind fun o d₁ haccept h₁ _ => ?_
    cases o with
    | none => exact .ok (.refl d₁) hs
    | some question =>
      obtain ⟨hkind, hrest⟩ := accept_some haccept
      refine (hc d₁ (h₁.stands hd)).bind fun yes d₂ _ h₂ hy => ?_
      refine (Tracks.expect _ _ d₂ (h₂.stands (h₁.stands hd))).bind fun _ d₃ _ h₃ _ => ?_
      refine (he d₃ (h₃.stands (h₂.stands (h₁.stands hd)))).bind fun no d₄ _ h₄ hn => ?_
      have hlater : d₁.Leads d₄ := (h₂.trans h₃).trans h₄
      exact ih ((h₁.trans hlater).stands hd) (.more hchain hkind hrest hlater.rest)
        (L.ternary ⟨d, question, d₁.rest, hchain, hkind, hrest⟩ hs hy hn)

theorem conditional_tracks (n : Nat) (hu : Tracks made ts bodies unary (Reader.unary n) L.expr)
    (hc : Tracks made ts bodies conditional conditional' L.expr) :
    Tracks made ts bodies (Grammar.conditional n unary conditional) (Grammar.conditional n (Reader.unary n) conditional')
      L.expr := by
  intro c hstands
  have hequality := equality_tracks n hu
  refine (hequality c hstands).bind fun selector d hread hd hs => ?_
  refine (Tracks.previous d (hd.stands hstands)).bind fun last d' hlast _ _ => ?_
  obtain rfl := previous_stays hlast
  exact conditionalTail_tracked hequality hc n (hd.stands hstands) (.first hstands hread hlast) hs

theorem disjunction_tracks (n : Nat) (hc : Tracks made ts bodies conditional conditional' L.expr) :
    Tracks made ts bodies (disjunction n conditional) (disjunction n conditional') L.expr := by
  refine leftAssoc_tracks n (fun ht hkind => L.logical ht ?_) (leftAssoc_tracks n (fun ht hkind => L.logical ht ?_) hc)
  · exact List.mem_cons.2 (.inl (List.mem_singleton.1 hkind))
  · exact List.mem_cons_of_mem _ hkind

theorem assignment_tracks (n : Nat) (hc : Tracks made ts bodies conditional conditional' L.expr)
    (he : Tracks made ts bodies expression expression' L.expr) : Tracks made ts bodies
      (assignment n conditional expression) (assignment n conditional' expression') L.expr := by
  refine (disjunction_tracks n hc).bind fun target ht => (Tracks.accept _).bind fun equals _ => ?_
  cases equals with
  | none => exact .pure ht
  | some equals =>
    refine he.bind fun value hv => ?_
    cases target with
    | ref name hops => exact .pure (L.assign ht hv)
    | property object name => exact .pure (L.setProperty ht hv)
    | _ => exact (Tracks.report equals _).bind fun _ _ => .pure ht

theorem commaList_tracks {α : Type} {item item' : Reader α} {P : α → Prop} (hi : Tracks made ts bodies item item' P)
    (limit : Nat) (what : String) (n count : Nat) : Tracks made ts bodies (commaList item limit what n count)
      (commaList item' limit what n count) fun as => ∀ a ∈ as, P a := by
  induction n generalizing count with
  | zero => exact .stuck
  | succ n ih =>
    unfold commaList
    refine .ite (Tracks.peek.bind fun t _ => (Tracks.report t _).bind fun _ _ => ?_) ?_
    -- The items are read in the same way, too many or not.
    all_goals
      refine hi.bind fun first hfirst => (Tracks.accept _).bind fun comma _ => ?_
      cases comma with
      | none => exact .pure (List.forall_mem_singleton.2 hfirst)
      | some _ => exact (ih (count + 1)).bind fun rest hrest => .pure (List.forall_mem_cons.2 ⟨hfirst, hrest⟩)

theorem listUntil_tracks {α : Type} {item item' : Reader α} {P : α → Prop} (hi : Tracks made ts bodies item item' P)
    (n : Nat) (closing : Token.Kind) (limit : Nat) (what : String) : Tracks made ts bodies
      (listUntil n closing item limit what) (listUntil n closing item' limit what) fun as => ∀ a ∈ as, P a :=
  (Tracks.sees closing).bind fun _ _ => .ite (.pure (List.forall_mem_nil _)) (commaList_tracks hi limit what n 0)

theorem callTail_tracks (he : Tracks made ts bodies expression expression' L.expr) (n : Nat) {e : Expr}
    (h : L.expr e) : Tracks made ts bodies (callTail expression n e) (callTail expression' n e) L.expr := by
  induction n generalizing e with
  | zero => exact .stuck
  | succ n ih =>
    refine (Tracks.take? _).bind fun t _ => ?_
    cases t with
    | none => exact .pure h
    | some t =>
      refine .ite ?_ ((Tracks.expect _ _).bind fun name hname => ih (L.property hname.1 hname.2 h))
      exact (listUntil_tracks he n _ _ _).bind fun arguments ha => (Tracks.expect _ _).bind fun paren hparen =>
        ih (L.call hparen.1 hparen.2 h ha)

theorem lambda_tracks (n : Nat)
    (hb : Tracks made ts (.function :: bodies) block block' fun ss => ∀ t ∈ ss, L.stmt false t) (what : String) :
    Tracks made ts bodies (lambda n block what) (lambda n block' what) L.lambda := by
  refine .inFunction ((Tracks.expect _ _).bind fun _ _ => ?_)
  refine (listUntil_tracks (Tracks.expect _ _) n _ _ _).bind fun params hp => (Tracks.expect _ _).bind fun _ _ => ?_
  exact (Tracks.expect _ _).bind fun _ _ => hb.bind fun body hbody => .pure (L.definition hp hbody)

theorem primary_tracks (n : Nat) (he : Tracks made ts bodies expression expression' L.expr)
    (hb : Tracks made ts (.function :: bodies) block block' fun ss => ∀ t ∈ ss, L.stmt false t) :
    Tracks made ts bodies (primary n expression block) (primary n expression' block') L.expr := by
  refine (Tracks.take? _).bind fun t ht => ?_
  cases t with
  | none => exact Tracks.peek.bind fun t _ => Tracks.giveUp t _
  | some t =>
    obtain ⟨ht, hkind⟩ := ht t rfl
    dsimp only
    split
    · exact .pure (L.constant (.inr ⟨_, rfl⟩))
    · exact .pure (L.constant (.inr ⟨_, rfl⟩))
    · exact .pure (L.constant (.inl rfl))
    · exact .pure (L.self ht ‹_›)
    · exact .pure (L.ref ht ‹_›)
    · exact (lambda_tracks n hb _).bind fun f hf => .pure (L.function hf)
    · exact (listUntil_tracks he n _ _ _).bind fun es hes => (Tracks.expect _ _).bind fun _ _ => .pure (L.list hes)
    · exact he.bind fun inner hi => (Tracks.expect _ _).bind fun _ _ => .pure (L.group hi)
    · refine .pure (L.literal ht ?_)
      simp only [startsOperand, List.mem_cons, decide_eq_true_eq] at hkind
      grind

theorem unary_tracks (n : Nat) (hu : Tracks made ts bodies unary unary' L.expr)
    (he : Tracks made ts bodies expression expression' L.expr)
    (hb : Tracks made ts (.function :: bodies) block block' fun ss => ∀ t ∈ ss, L.stmt false t) :
    Tracks made ts bodies (Grammar.unary n unary expression block) (Grammar.unary n unary' expression' block')
      L.expr := by
  refine (Tracks.take? _).bind fun op hop => ?_
  cases op with
  | some op =>
    obtain ⟨ht, hkind⟩ := hop op rfl
    exact hu.bind fun e h => .pure (L.unary ht (of_decide_eq_true hkind) h)
  | none => exact (primary_tracks n he hb).bind fun e h => callTail_tracks he n h

end expressions

section statements

variable (he : Tracks made ts bodies expression expression' L.expr)

include he

theorem clause_tracks : Tracks made ts bodies (some <$> expression) (some <$> expression')
    fun o => ∀ e, o = some e → L.expr e :=
  he.map fun _ h _ hd => Option.some.inj hd ▸ h

theorem expressionStmt_tracks (loop : Bool) : Tracks made ts bodies (expressionStmt expression)
    (expressionStmt expression') (L.plain loop) :=
  he.bind fun _ h => (Tracks.expect _ _).bind fun _ _ => .pure (L.expression h)

theorem varDecl_tracks (loop : Bool) :
    Tracks made ts bodies (varDecl expression) (varDecl expression') (L.stmt loop) := by
  refine (Tracks.expect _ _).bind fun name hname => (Tracks.accept _).bind fun equal _ => ?_
  have hrest : ∀ initial : Option Expr, (∀ e, initial = some e → L.expr e) → Tracks made ts bodies
      (do let _ ← Reader.expect .semicolon "';' after variable declaration"; pure (.varDecl name initial))
      (do let _ ← Reader.expect .semicolon "';' after variable declaration"; pure (.varDecl name initial))
      (L.stmt loop) :=
    fun initial h => (Tracks.expect _ _).bind fun _ _ => .pure (L.varDecl hname.1 hname.2 h)
  cases equal with
  | none => exact Tracks.bind (.pure fun e h => nomatch h) hrest
  | some _ => exact (clause_tracks he).bind hrest

theorem whileStmt_tracks (loop : Bool) (hs : Tracks made ts (.loop :: bodies) loopBody loopBody' (L.plain true)) :
    Tracks made ts bodies (whileStmt expression loopBody) (whileStmt expression' loopBody') (L.plain loop) :=
  (Tracks.expect _ _).bind fun _ _ => he.bind fun _ hc => (Tracks.expect _ _).bind fun _ _ =>
    (Tracks.inLoop hs).bind fun _ hb => .pure (L.whileLoop hc hb (nofun : ∀ e, (none : Option Expr) = some e → _))

theorem forInit_tracks (loop : Bool) : Tracks made ts bodies (forInit expression) (forInit expression')
    fun o => ∀ t, o = some t → L.stmt loop t := by
  refine (Tracks.take? _).bind fun t _ => ?_
  cases t with
  | none => exact (expressionStmt_tracks he loop).map fun _ h _ hu => Option.some.inj hu ▸ L.of_plain h
  | some t =>
    exact .ite (.pure fun e h => nomatch h) ((varDecl_tracks he loop).map fun _ h _ hu => Option.some.inj hu ▸ h)

theorem forStmt_tracks (loop : Bool) (hs : Tracks made ts (.loop :: bodies) loopBody loopBody' (L.plain true)) :
    Tracks made ts bodies (forStmt expression loopBody) (forStmt expression' loopBody') (L.plain loop) := by
  refine (Tracks.expect _ _).bind fun _ _ => (forInit_tracks he loop).bind fun first hfirst => ?_
  refine Tracks.unlessSees (L.constant (.inr ⟨_, rfl⟩)) he fun condition hc => (Tracks.expect _ _).bind fun _ _ => ?_
  refine Tracks.unlessSees (P := fun o => ∀ e, o = some e → L.expr e) (fun e h => nomatch h) (clause_tracks he)
    fun step hstep => ?_
  refine (Tracks.expect _ _).bind fun _ _ => (Tracks.inLoop hs).bind fun body hb => ?_
  have hloop : L.plain loop (.whileLoop condition body (step.map .expression)) := L.whileLoop hc hb hstep
  cases first with
  | none => exact .pure hloop
  | some t =>
    exact .pure (L.block (List.forall_mem_cons.2 ⟨hfirst t rfl, List.forall_mem_singleton.2 (L.of_plain hloop)⟩))

theorem ifStmt_tracks {loop : Bool} (hs : Tracks made ts bodies statement statement' (L.plain loop)) :
    Tracks made ts bodies (ifStmt expression statement) (ifStmt expression' statement') (L.plain loop) := by
  refine (Tracks.expect _ _).bind fun _ _ => he.bind fun condition hc => (Tracks.expect _ _).bind fun _ _ => ?_
  refine hs.bind fun yes hy => (Tracks.accept _).bind fun other _ => ?_
  have hrest : ∀ no : Option Stmt, (∀ u, no = some u → L.plain loop u) → Tracks made ts bodies
      (pure (.ifThen condition yes no)) (pure (.ifThen condition yes no)) (L.plain loop) :=
    fun no h => .pure (L.ifThen hc hy h)
  cases other with
  | none => exact Tracks.bind (.pure fun e h => nomatch h) hrest
  | some _ =>
    exact Tracks.bind (P := fun o => ∀ u, o = some u → L.plain loop u)
      (hs.map fun _ h _ hu => Option.some.inj hu ▸ h) hrest

theorem printStmt_tracks (loop : Bool) :
    Tracks made ts bodies (printStmt expression) (printStmt expression') (L.plain loop) :=
  he.bind fun _ h => (Tracks.expect _ _).bind fun _ _ => .pure (L.print h)

theorem returnStmt_tracks (loop : Bool) {keyword : Token} (ht : keyword ∈ ts) (hkind : keyword.kind = .kwReturn) :
    Tracks made ts bodies (returnStmt keyword expression) (returnStmt keyword expression') (L.plain loop) := by
  refine Tracks.unlessSees (P := fun o => ∀ e, o = some e → L.expr e) (fun e h => nomatch h) (clause_tracks he)
    fun value hv => ?_
  exact (Tracks.expect _ _).bind fun _ _ => .pure (L.ret ht hkind hv)

omit he in
theorem jump_tracks (keyword : Token) {node : Token → Stmt} (hnode : L.plain true (node keyword)) :
    Tracks made ts bodies (jump keyword node) (jump keyword node) (L.plain (Body.insideLoop bodies)) := by
  intro c hc
  have hjump : jump keyword node c = (if c.inLoop then (do
      let _ ← Reader.expect .semicolon ("';' after '" ++ keyword.lexeme ++ "'")
      pure (node keyword)) else Reader.giveUp keyword (.outsideLoop keyword.lexeme)) c := rfl
  rw [hjump, Body.inLoop_of_tally hc.loops]
  cases Body.insideLoop bodies with
  | true => exact ((Tracks.expect _ _).bind fun _ _ => .pure hnode : Tracks made ts bodies _ _ _) c hc
  | false => exact (Tracks.giveUp keyword _ : Tracks made ts bodies _ _ _) c hc

theorem statementIn_tracks (hs : Tracks made ts bodies statement statement' (L.plain (Body.insideLoop bodies)))
    (hl : Tracks made ts (.loop :: bodies) loopBody loopBody' (L.plain true))
    (hb : Tracks made ts bodies block block' fun ss => ∀ t ∈ ss, L.stmt (Body.insideLoop bodies) t) :
    Tracks made ts bodies (statementIn expression statement loopBody block)
      (statementIn expression' statement' loopBody' block') (L.plain (Body.insideLoop bodies)) := by
  refine (Tracks.take? _).bind fun t hword => ?_
  cases t with
  | none => exact expressionStmt_tracks he _
  | some t =>
    obtain ⟨ht, -⟩ := hword t rfl
    dsimp only
    split
    · exact jump_tracks t (L.breakLoop ht ‹_›)
    · exact jump_tracks t (L.continueLoop ht ‹_›)
    · exact forStmt_tracks he _ hl
    · exact ifStmt_tracks he hs
    · exact printStmt_tracks he _
    · exact returnStmt_tracks he _ ht ‹_›
    · exact whileStmt_tracks he _ hl
    · exact hb.bind fun ss h => .pure (L.block h)

end statements

section declarations

variable (hb : Tracks made ts (.function :: bodies) block block' fun ss => ∀ t ∈ ss, L.stmt false t)

include hb

theorem function_tracks (n : Nat) (what : String) : Tracks made ts bodies (function n block what)
    (function n block' what) fun x => (x.1 ∈ ts ∧ x.1.kind = .identifier) ∧ L.lambda x.2 :=
  (Tracks.expect _ _).bind fun _ hname => (lambda_tracks n hb what).bind fun _ hf => .pure ⟨hname, hf⟩

theorem methods_tracks (n m : Nat) : Tracks made ts bodies (methods n block m) (methods n block' m)
    fun ms => ∀ m ∈ ms, (m.name ∈ ts ∧ m.name.kind = .identifier) ∧ L.lambda m.definition := by
  induction m with
  | zero => exact .stuck
  | succ m ih =>
    refine (Tracks.sees _).bind fun closed _ => Tracks.atEnd.bind fun ended _ => .ite (.pure (List.forall_mem_nil _)) ?_
    exact (function_tracks hb n _).bind fun x hx => ih.bind fun ms hms => .pure (List.forall_mem_cons.2 ⟨hx, hms⟩)

theorem classDecl_tracks (loop : Bool) (n : Nat) :
    Tracks made ts bodies (classDecl n block) (classDecl n block') (L.stmt loop) := by
  refine (Tracks.expect _ _).bind fun name hname => (Tracks.expect _ _).bind fun _ _ => ?_
  exact (methods_tracks hb n n).bind fun ms hms => (Tracks.expect _ _).bind fun _ _ =>
    .pure (L.classDecl hname.1 hname.2 hms)

theorem declaration_tracks {loop : Bool} (n : Nat) (he : Tracks made ts bodies expression expression' L.expr)
    (hs : Tracks made ts bodies statement statement' (L.plain loop)) :
    Tracks made ts bodies (Grammar.declaration n expression statement block)
      (Grammar.declaration n expression' statement' block') fun o => ∀ t, o = some t → L.stmt loop t := by
  refine .recovering ((Tracks.accept _).bind fun word _ => ?_)
  refine .ite (classDecl_tracks hb loop n) (Tracks.seesNamedFunction.bind fun _ _ => .ite ?_ ?_)
  · exact (Tracks.accept _).bind fun _ _ => (function_tracks hb n _).bind fun x hx =>
      .pure (L.funDecl hx.1.1 hx.1.2 hx.2)
  · exact (Tracks.accept _).bind fun word _ => .ite (varDecl_tracks he loop) (hs.mono fun _ h => L.of_plain h)

omit hb in
theorem declarations_tracks {loop : Bool} (closing : Token.Kind) {declaration declaration' : Reader (Option Stmt)}
    (hd : Tracks made ts bodies declaration declaration' fun o => ∀ t, o = some t → L.stmt loop t) (n : Nat) :
    Tracks made ts bodies (declarations closing declaration n) (declarations closing declaration' n)
      fun ss => ∀ t ∈ ss, L.stmt loop t := by
  induction n with
  | zero => exact .stuck
  | succ n ih =>
    refine (Tracks.sees _).bind fun closed _ => Tracks.atEnd.bind fun ended _ => .ite (.pure (List.forall_mem_nil _)) ?_
    refine hd.bind fun first hfirst => ih.bind fun others hothers => .pure ?_
    cases first with
    | none => exact hothers
    | some t => exact List.forall_mem_cons.2 ⟨hfirst t rfl, hothers⟩

end declarations

end Grammar

namespace Reader

structure TracksAll (watch : List Body → Cursor → Prop) (made : List Report) (L : TreeLaw ts) (n : Nat)
    (bodies : List Body) : Prop where
  expression : Tracks made ts bodies (expressionIn watch n bodies) (expression n) L.expr
  conditional : Tracks made ts bodies (conditionalIn watch n bodies) (conditional n) L.expr
  unary : Tracks made ts bodies (unaryIn watch n bodies) (unary n) L.expr
  statement : Tracks made ts bodies (statementIn watch n bodies) (statement n) (L.plain (Body.insideLoop bodies))
  declaration : Tracks made ts bodies (declarationIn watch n bodies) (declaration n)
    fun o => ∀ t, o = some t → L.stmt (Body.insideLoop bodies) t
  block : Tracks made ts bodies (blockIn watch n bodies) (block n) fun ss => ∀ t ∈ ss, L.stmt (Body.insideLoop bodies) t

variable {watch : List Body → Cursor → Prop}

/-- Where the condition fails, the statement that begins there has made the reports when it is read. -/
theorem tracksAll (L : TreeLaw ts) (hwatch : ∀ (bodies : List Body) (c : Cursor), c.Stands ts bodies →
    ¬watch bodies c → ∀ n, made <:+ (place (statement (n + 1) c)).reports) (n : Nat) (bodies : List Body) :
    TracksAll watch made L n bodies := by
  induction n generalizing bodies with
  | zero =>
    constructor <;> simp only [expressionIn, conditionalIn, unaryIn, statementIn, declarationIn, blockIn,
      expression, conditional, unary, statement, declaration, block] <;> exact .stuck
  | succ n ih =>
    have hloop := (ih (.loop :: bodies)).statement
    have hfunction := (ih (.function :: bodies)).block
    rw [Body.insideLoop_loop] at hloop
    simp only [Body.insideLoop_function] at hfunction
    obtain ⟨he, hc, hu, hs, hd, hb⟩ := ih bodies
    constructor
    · simp only [expressionIn, expression]
      exact Grammar.assignment_tracks n hc he
    · simp only [conditionalIn, conditional]
      exact Grammar.conditional_tracks n hu hc
    · simp only [unaryIn, unary]
      exact Grammar.unary_tracks n hu he hfunction
    · simp only [statementIn]
      refine .stopUnless ?_ fun c hc hstop => hwatch bodies c hc hstop n
      simp only [statement, Grammar.statement_eq]
      exact Grammar.statementIn_tracks he hs hloop hb
    · simp only [declarationIn, declaration]
      exact Grammar.declaration_tracks hfunction n he hs
    · simp only [blockIn, block]
      exact (Grammar.declarations_tracks _ hd n).bind fun ss hss => (Tracks.expect _ _).bind fun _ _ => .pure hss

theorem watched_tracks (L : TreeLaw ts) (hwatch : ∀ (bodies : List Body) (c : Cursor), c.Stands ts bodies →
    ¬watch bodies c → ∀ n, made <:+ (place (statement (n + 1) c)).reports) (n : Nat) :
    Tracks made ts [] (watched watch n) (program n) fun ss => ∀ t ∈ ss, L.stmt false t :=
  Grammar.declarations_tracks _ (tracksAll L hwatch n []).declaration n

end Reader

end readers

/-- What is read from a text, with reports or without, has the properties of trees that the grammar keeps. -/
theorem TreeLaw.parse {ts : List Token} (L : TreeLaw ts) {ss : List Stmt} (h : (parse ts).1 = some ss) :
    ∀ t ∈ ss, L.stmt false t := by
  have htracks : ∀ n, Tracks [] ts [] (Reader.watched (fun _ _ => True) n) (Reader.program n) _ :=
    Reader.watched_tracks L fun _ _ _ h => absurd trivial h
  have hread := htracks (Reader.depthPerToken * (ts.length + 1)) (Cursor.ofTokens ts) ⟨rfl, List.suffix_refl ts⟩
  unfold LoxLang.parse at h
  cases hrun : Reader.program (Reader.depthPerToken * (ts.length + 1)) (Cursor.ofTokens ts) with
  | ok read c =>
    rw [hrun] at h
    obtain rfl := Option.some.inj h
    exact hread.value hrun
  | error e c =>
    rw [hrun] at h
    cases h

end LoxLang
