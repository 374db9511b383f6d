import LoxLang.Proofs.Written.Nodes

namespace LoxLang

namespace Form

structure Spells (f : Form) (text : String) : Prop where
  sound : f.Sound
  render : f.render = text.toList

theorem Spells.sounds {fs : List Form} {texts : List String} (h : List.Forall₂ Spells fs texts) :
    ∀ f ∈ fs, f.Sound := by
  induction h with
  | nil => exact List.forall_mem_nil _
  | cons hf _ ih => exact List.forall_mem_cons.2 ⟨hf.sound, ih⟩

theorem Spells.renderAfter {fs : List Form} {texts : List String} (h : List.Forall₂ Spells fs texts)
    (separator : Char) : renderAfter separator fs = texts.flatMap fun text => separator :: text.toList := by
  induction h with
  | nil => rfl
  | cons hf _ ih => rw [Form.renderAfter, hf.render, ih, List.flatMap_cons]

/-- The form is written so and stands for the node. -/
structure Shows (number : List Char → Float) (f : Form) (text : String) (n : Node) : Prop where
  spells : f.Spells text
  reads : f.node? number = some n

structure Parts (number : List Char → Float) (fs : List Form) (texts : List String) (ns : List (Option Node)) :
    Prop where
  spells : List.Forall₂ Spells fs texts
  reads : nodes? number fs = ns

variable {number : List Char → Float} {f : Form} {fs : List Form} {text : String} {texts : List String} {n : Node}
  {ns : List (Option Node)}

namespace Parts

theorem nil (number : List Char → Float) : Parts number [] [] [] := ⟨.nil, rfl⟩

theorem spelled (hf : f.Spells text) (h : Parts number fs texts ns) :
    Parts number (f :: fs) (text :: texts) (f.node? number :: ns) :=
  ⟨.cons hf h.spells, by rw [nodes?, h.reads]⟩

theorem cons (hf : f.Shows number text n) (h : Parts number fs texts ns) :
    Parts number (f :: fs) (text :: texts) (some n :: ns) :=
  hf.reads ▸ h.spelled hf.spells

theorem of_all {α : Type} {as : List α} {text : α → String} {n : α → Node}
    (h : ∀ a ∈ as, ∃ f, Shows number f (text a) (n a)) :
    ∃ fs, Parts number fs (as.map text) (as.map fun a => some (n a)) := by
  induction as with
  | nil => exact ⟨[], nil number⟩
  | cons a as ih =>
    obtain ⟨⟨f, hf⟩, h⟩ := List.forall_mem_cons.1 h |>.imp_right id
    obtain ⟨fs, hfs⟩ := ih h
    exact ⟨f :: fs, cons hf hfs⟩

end Parts

theorem toList_intercalate (separator first : String) (rest : List String) :
    (separator.intercalate (first :: rest)).toList =
      first.toList ++ rest.flatMap fun text => separator.toList ++ text.toList := by
  induction rest generalizing first with
  | nil => simp
  | cons next rest ih => simp [String.intercalate_cons_cons, ih]

theorem toList_listed (head : String) (parts : List String) : (listed head parts).toList =
    '(' :: head.toList ++ (parts.flatMap fun text => ' ' :: text.toList) ++ [')'] := by
  unfold listed
  rw [String.toList_append, String.toList_append, toList_intercalate, List.append_assoc]
  simp

theorem word_sound {head : Head} (h : head ∈ Head.all) : (atom head.word.toList).Sound := by
  have hall : ∀ head ∈ Head.all, head.word.toList ≠ [] ∧
      (head.word.toList.all fun c => c ∉ '(' :: '\"' :: delimiters) = true := by decide
  exact .of_all (hall head h)

theorem Parts.node (head : Head) (hhead : head ∈ Head.all) (h : Parts number fs texts ns)
    (hn : assemble head fs ns = some n) :
    Shows number (.node (.atom head.word.toList :: fs)) (listed head.word texts) n where
  spells := {
    sound := .node (List.forall_mem_cons.2 ⟨word_sound hhead, Spells.sounds h.spells⟩)
    render := by rw [Form.render, Form.render, Spells.renderAfter h.spells, toList_listed] }
  reads := by rw [node?, Head.ofWord?_word head hhead, Option.bind_some, h.reads, hn]

theorem listed_named (word name : String) (parts : List String) :
    listed (word ++ " " ++ name) parts = listed word (name :: parts) := by
  simp [listed, String.intercalate_cons_cons]

end Form

namespace Token

variable {t : Token}

/-- Nothing but its line tells a token from others of its kind, unless the kind is for names or literals. -/
theorem Lexed.spelled (h : t.Lexed) (hkind : t.kind ∉ [Token.Kind.identifier, .string, .number, .eof]) :
    t.unplaced = t.kind.token ∧ t.lexeme = String.ofList t.kind.spelling := by
  obtain ⟨kind, lexeme, line, literal⟩ := t
  simp only [List.mem_cons, List.not_mem_nil, or_false, not_or] at hkind
  obtain ⟨hspelling, rfl⟩ := (h hkind.2.2.2).spelled (by simp [hkind])
  have hlexeme : lexeme = String.ofList kind.spelling := by rw [← hspelling, String.ofList_toList]
  exact ⟨by rw [unplaced, Kind.token, hlexeme], hlexeme⟩

theorem Lexed.unplaced_eq (h : t.Lexed) {kind : Kind} (hkind : t.kind = kind)
    (hplain : kind ∉ [Token.Kind.identifier, .string, .number, .eof]) : t.unplaced = kind.token := by
  subst hkind
  exact (h.spelled hplain).1

structure Named (t : Token) : Prop where
  kind : t.kind = .identifier
  word : Word t.lexeme.toList
  literal : t.literal = none
  plain : ∀ kind, (t.lexeme, kind) ∉ keywords

theorem Lexed.named (h : t.Lexed) (hkind : t.kind = .identifier) : t.Named := by
  have hlexeme := h (by simp [hkind])
  rw [hkind] at hlexeme
  generalize hliteral : t.literal = literal at hlexeme
  cases hlexeme with
  | sign h =>
    have hsigns : ∀ entry ∈ signs, entry.2 ≠ .identifier := by decide
    exact absurd rfl (hsigns _ h)
  | keyword _ h =>
    have hkeywords : ∀ entry ∈ keywords, entry.2 ≠ .identifier := by decide
    exact absurd rfl (hkeywords _ h)
  | identifier hword hplain => exact ⟨hkind, hword, hliteral, by simpa using hplain⟩

theorem Named.unplaced (h : t.Named) : Form.identifier t.lexeme.toList = t.unplaced := by
  rw [Form.identifier, Token.unplaced, String.ofList_toList, h.kind, h.literal]

theorem not_mem_of_wordChar {c : Char} (h : c.isAlphanum ∨ c = '_') : c ∉ '(' :: '\"' :: Form.delimiters := by
  intro hc
  simp only [Form.delimiters, List.mem_cons, List.not_mem_nil, or_false] at hc
  rcases hc with rfl | rfl | rfl | rfl | rfl <;> simp at h

theorem Named.spells (h : t.Named) : (Form.atom t.lexeme.toList).Spells t.lexeme := by
  obtain ⟨hchars, c, cs, htext, -⟩ := h.word
  exact ⟨.word (by simp [htext]) fun c hc => not_mem_of_wordChar (hchars c hc), rfl⟩

theorem Named.leaf (h : t.Named) (number : List Char → Float) :
    Form.leaf number t.lexeme.toList = .ref t.unplaced none := by
  obtain ⟨hchars, c, cs, htext, hdigit⟩ := h.word
  have hquote : ∀ rest, t.lexeme.toList ≠ '\"' :: rest := fun rest he =>
    not_mem_of_wordChar (hchars '\"' (by simp [he])) (by simp)
  unfold Form.leaf
  split
  next he => exact absurd he (hquote _)
  next => 
    rw [if_neg (by simp [htext, hdigit]), String.ofList_toList, wordKind_identifier h.plain, h.unplaced]

theorem Named.shows (h : t.Named) (number : List Char → Float) (hops : Option Nat) :
    (Form.atom t.lexeme.toList).Shows number (Expr.ref t hops).written (.expr (.ref t.unplaced none)) :=
  ⟨by rw [Expr.written]; exact h.spells, by rw [Form.node?, h.leaf]⟩

end Token

theorem writtenExprs_eq (es : List Expr) : writtenExprs es = es.map Expr.written := by
  induction es with
  | nil => rfl
  | cons e es ih => simp [writtenExprs, ih]

theorem writtenStmts_eq (ts : List Stmt) : writtenStmts ts = ts.map Stmt.written := by
  induction ts with
  | nil => rfl
  | cons t ts ih => simp [writtenStmts, ih]

theorem writtenMethods_eq (ms : List Method) :
    writtenMethods ms = ms.map fun m => (Stmt.funDecl m.name m.definition).written := by
  induction ms with
  | nil => rfl
  | cons m ms ih =>
    obtain ⟨name, f⟩ := m
    simp [writtenMethods, ih, Stmt.written, Method.name, Method.definition]

section shown

variable (number : List Char → Float)

/-- A form shows the expression without its lines. -/
def Expr.Shown (e : Expr) : Prop := ∃ f, Form.Shows number f e.written (.expr e.essence)

def Stmt.Shown (t : Stmt) : Prop := ∃ f, Form.Shows number f t.written (.stmt t.essence)

structure Lambda.Shown (f : Lambda) : Prop where
  params : ∀ p ∈ f.params, p.Named
  body : ∀ t ∈ f.body, t.Shown number

end shown

open Form

variable {number : List Char → Float}

section expressions

variable {e l r c y n o v : Expr} {es : List Expr} {name op : Token}

namespace Expr.Shown

theorem nil : (Expr.literal .nil).Shown number :=
  ⟨.atom "nil".toList, ⟨.of_all (by decide), rfl⟩, rfl⟩

theorem bool (b : Bool) : (Expr.literal (.bool b)).Shown number := by
  cases b with
  | true => exact ⟨.atom "true".toList, ⟨.of_all (by decide), rfl⟩, rfl⟩
  | false => exact ⟨.atom "false".toList, ⟨.of_all (by decide), rfl⟩, rfl⟩

theorem text {s : String} (h : '\"' ∉ s.toList) : (Expr.literal (.text s)).Shown number := by
  refine ⟨.atom ('\"' :: s.toList ++ ['\"']), ⟨.quoted h, ?_⟩, ?_⟩
  · simp [Form.render, Expr.written, Literal.written]
  · simp [node?, leaf, Expr.essence, Literal.essence]

theorem ref (h : name.Named) : (Expr.ref name none).Shown number := ⟨_, h.shows number none⟩

theorem group (he : e.Shown number) : (Expr.group e).Shown number := by
  obtain ⟨f, hf⟩ := he
  exact ⟨_, (Parts.cons hf (.nil _)).node .group (by decide) rfl⟩

theorem ternary (line : Int) (hc : c.Shown number) (hy : y.Shown number) (hn : n.Shown number) :
    (Expr.ternary c y n line).Shown number := by
  obtain ⟨_, hc⟩ := hc
  obtain ⟨_, hy⟩ := hy
  obtain ⟨_, hn⟩ := hn
  exact ⟨_, (Parts.cons hc (.cons hy (.cons hn (.nil _)))).node .choice (by decide) rfl⟩

theorem list (h : ∀ d ∈ es, d.Shown number) : (Expr.list es).Shown number := by
  obtain ⟨fs, hfs⟩ := Parts.of_all h
  have hshows := hfs.node .list (by decide) rfl
  rw [← writtenExprs_eq, filterMap_expr?, ← essenceOfExprs_eq] at hshows
  exact ⟨_, hshows⟩

theorem call {paren : Token} (ht : paren.Lexed) (hkind : paren.kind = .rightParen) (he : e.Shown number)
    (hes : ∀ d ∈ es, d.Shown number) : (Expr.call e paren es).Shown number := by
  obtain ⟨f, hf⟩ := he
  obtain ⟨fs, hfs⟩ := Parts.of_all hes
  have hshows := (Parts.cons hf hfs).node .call (by decide) rfl
  rw [← writtenExprs_eq, filterMap_expr?, ← essenceOfExprs_eq, ← ht.unplaced_eq hkind (by decide)] at hshows
  exact ⟨_, hshows⟩

theorem operator_mem {kind : Token.Kind} (h : kind ∈ Head.operators) : Head.op kind ∈ Head.all :=
  List.mem_append_right _ (List.mem_map_of_mem h)

theorem operator_plain : ∀ kind ∈ Head.operators, kind ∉ [Token.Kind.identifier, .string, .number, .eof] := by decide

theorem unary (ht : op.Lexed) (hkind : op.kind ∈ [Token.Kind.bang, .minus]) (he : e.Shown number) :
    (Expr.unary op e).Shown number := by
  obtain ⟨f, hf⟩ := he
  have hop : op.kind ∈ Head.operators := List.mem_append_left _ (List.mem_append_left _ hkind)
  obtain ⟨hunplaced, hlexeme⟩ := ht.spelled (operator_plain _ hop)
  have hshows := (Parts.cons hf (.nil _)).node (.op op.kind) (operator_mem hop) rfl
  rw [Head.word, ← hlexeme, ← hunplaced] at hshows
  exact ⟨_, hshows⟩

theorem binary (ht : op.Lexed) (hkind : op.kind ∈ Grammar.binaryLevels.flatten) (hl : l.Shown number)
    (hr : r.Shown number) : (Expr.binary l op r).Shown number := by
  obtain ⟨f, hf⟩ := hl
  obtain ⟨g, hg⟩ := hr
  have hop : op.kind ∈ Head.operators := List.mem_append_left _ (List.mem_append_right _ hkind)
  have hword : op.kind ∉ [Token.Kind.kwOr, .kwAnd] := by
    have hall : ∀ kind ∈ Grammar.binaryLevels.flatten, kind ∉ [Token.Kind.kwOr, .kwAnd] := by decide
    exact hall _ hkind
  obtain ⟨hunplaced, hlexeme⟩ := ht.spelled (operator_plain _ hop)
  have hshows := (Parts.cons hf (.cons hg (.nil _))).node (.op op.kind) (operator_mem hop) rfl
  rw [Head.word, ← hlexeme, ← hunplaced, if_neg hword] at hshows
  exact ⟨_, hshows⟩

theorem logical (ht : op.Lexed) (hkind : op.kind ∈ [Token.Kind.kwOr, .kwAnd]) (hl : l.Shown number)
    (hr : r.Shown number) : (Expr.logical l op r).Shown number := by
  obtain ⟨f, hf⟩ := hl
  obtain ⟨g, hg⟩ := hr
  have hop : op.kind ∈ Head.operators := List.mem_append_right _ hkind
  obtain ⟨hunplaced, hlexeme⟩ := ht.spelled (operator_plain _ hop)
  have hshows := (Parts.cons hf (.cons hg (.nil _))).node (.op op.kind) (operator_mem hop) rfl
  rw [Head.word, ← hlexeme, ← hunplaced, if_pos hkind] at hshows
  exact ⟨_, hshows⟩

theorem assign (hname : name.Named) (hv : v.Shown number) :
    (Expr.assign name none v).Shown number := by
  obtain ⟨f, hf⟩ := hv
  have hshows := (Parts.spelled hname.spells (.cons hf (.nil _))).node .assign (by decide) rfl
  rw [← listed_named, hname.unplaced] at hshows
  exact ⟨_, hshows⟩

theorem property (hname : name.Named) (ho : o.Shown number) : (Expr.property o name).Shown number := by
  obtain ⟨f, hf⟩ := ho
  have hshows := (Parts.spelled hname.spells (.cons hf (.nil _))).node .get (by decide) rfl
  rw [← listed_named, hname.unplaced] at hshows
  exact ⟨_, hshows⟩

theorem setProperty (hname : name.Named) (ho : o.Shown number) (hv : v.Shown number) :
    (Expr.setProperty o name v).Shown number := by
  obtain ⟨f, hf⟩ := ho
  obtain ⟨g, hg⟩ := hv
  have hshows := (Parts.spelled hname.spells (.cons hf (.cons hg (.nil _)))).node .put (by decide) rfl
  rw [← listed_named, hname.unplaced] at hshows
  exact ⟨_, hshows⟩

theorem self (ht : name.Lexed) (hkind : name.kind = .kwThis) : (Expr.self name none).Shown number := by
  refine ⟨.atom "this".toList, ⟨.of_all (by decide), rfl⟩, ?_⟩
  rw [Expr.essence, ht.unplaced_eq hkind (by decide)]
  rfl

end Expr.Shown

end expressions

section functions

variable {params : List Token} {body : List Stmt} {name : Token}

theorem Form.spells_params (h : ∀ p ∈ params, p.Named) :
    (Form.node (params.map fun p => .atom p.lexeme.toList)).Spells (paramList params) where
  sound := .node (List.forall_mem_map.2 fun p hp => (h p hp).spells.sound)
  render := by
    unfold paramList
    cases params with
    | nil => rfl
    | cons p ps =>
      have hafter : ∀ qs : List Token, renderAfter ' ' (qs.map fun q => .atom q.lexeme.toList) =
          (qs.map Token.lexeme).flatMap fun text => " ".toList ++ text.toList := by
        intro qs
        induction qs with
        | nil => rfl
        | cons q qs ih => simp [renderAfter, Form.render, ih]
      rw [String.toList_append, String.toList_append, List.map_cons, List.map_cons, toList_intercalate, ← hafter]
      rfl

theorem Form.filterMap_name? (h : ∀ p ∈ params, p.Named) :
    (params.map fun p => Form.atom p.lexeme.toList).filterMap name? = params.map Token.unplaced := by
  simpa [List.filterMap_map, Function.comp_def, name?] using fun p hp => (h p hp).unplaced

theorem Lambda.Shown.parts (h : (Lambda.mk params body).Shown number) :
    ∃ fs, Parts number (.node (params.map fun p => .atom p.lexeme.toList) :: fs)
      (paramList params :: writtenStmts body)
      (Form.node? number (.node (params.map fun p => .atom p.lexeme.toList)) ::
        body.map fun t => some (.stmt t.essence)) := by
  obtain ⟨fs, hfs⟩ := Parts.of_all h.body
  exact ⟨fs, writtenStmts_eq body ▸ .spelled (spells_params h.params) hfs⟩

theorem Expr.Shown.function {f : Lambda} (h : f.Shown number) : (Expr.function f).Shown number := by
  obtain ⟨params, body⟩ := f
  obtain ⟨fs, hfs⟩ := h.parts
  have hparams : ∀ p ∈ params, p.Named := h.params
  have hshows := hfs.node .function (by decide) rfl
  rw [← listed_named, filterMap_name? hparams, filterMap_stmt?, ← essenceOfStmts_eq] at hshows
  exact ⟨_, hshows⟩

theorem Stmt.Shown.funDecl {f : Lambda} (hname : name.Named) (h : f.Shown number) :
    (Stmt.funDecl name f).Shown number := by
  obtain ⟨params, body⟩ := f
  obtain ⟨fs, hfs⟩ := h.parts
  have hparams : ∀ p ∈ params, p.Named := h.params
  have hshows := (Parts.spelled hname.spells hfs).node .function (by decide) rfl
  rw [← listed_named, ← listed_named, hname.unplaced, filterMap_name? hparams, filterMap_stmt?,
    ← essenceOfStmts_eq] at hshows
  exact ⟨_, hshows⟩

end functions

section statements

variable {e c : Expr} {t b : Stmt} {ss : List Stmt} {name keyword : Token}

namespace Stmt.Shown

theorem expression (he : e.Shown number) : (Stmt.expression e).Shown number := by
  obtain ⟨f, hf⟩ := he
  exact ⟨_, (Parts.cons hf (.nil _)).node .expression (by decide) rfl⟩

theorem print (he : e.Shown number) : (Stmt.print e).Shown number := by
  obtain ⟨f, hf⟩ := he
  exact ⟨_, (Parts.cons hf (.nil _)).node .print (by decide) rfl⟩

theorem varDecl {initial : Option Expr} (hname : name.Named) (h : ∀ e, initial = some e → e.Shown number) :
    (Stmt.varDecl name initial).Shown number := by
  cases initial with
  | none =>
    have hshows := (Parts.spelled hname.spells (.nil number)).node .varDecl (by decide) rfl
    rw [← listed_named, hname.unplaced] at hshows
    exact ⟨_, hshows⟩
  | some e =>
    obtain ⟨f, hf⟩ := h e rfl
    have hshows := (Parts.spelled hname.spells (.cons hf (.nil _))).node .varDecl (by decide) rfl
    rw [← listed_named, hname.unplaced] at hshows
    exact ⟨_, hshows⟩

theorem classDecl {ms : List Method} (hname : name.Named)
    (h : ∀ m ∈ ms, (Stmt.funDecl m.name m.definition).Shown number) : (Stmt.classDecl name ms).Shown number := by
  obtain ⟨fs, hfs⟩ := Parts.of_all h
  have hshows := (Parts.spelled hname.spells hfs).node .classDecl (by decide) rfl
  rw [← listed_named, ← writtenMethods_eq, hname.unplaced, filterMap_method?, ← essenceOfMethods_eq] at hshows
  exact ⟨_, hshows⟩

theorem block (h : ∀ t ∈ ss, t.Shown number) : (Stmt.block ss).Shown number := by
  obtain ⟨fs, hfs⟩ := Parts.of_all h
  have hshows := hfs.node .block (by decide) rfl
  rw [← writtenStmts_eq, filterMap_stmt?, ← essenceOfStmts_eq] at hshows
  exact ⟨_, hshows⟩

theorem ifThen {no : Option Stmt} (hc : c.Shown number) (ht : t.Shown number)
    (hn : ∀ u, no = some u → u.Shown number) : (Stmt.ifThen c t no).Shown number := by
  obtain ⟨f, hf⟩ := hc
  obtain ⟨g, hg⟩ := ht
  cases no with
  | none => exact ⟨_, (Parts.cons hf (.cons hg (.nil _))).node .ifThen (by decide) rfl⟩
  | some u =>
    obtain ⟨k, hk⟩ := hn u rfl
    exact ⟨_, (Parts.cons hf (.cons hg (.cons hk (.nil _)))).node .ifThen (by decide) rfl⟩

theorem whileLoop {step : Option Stmt} (hc : c.Shown number) (hb : b.Shown number)
    (hs : ∀ u, step = some u → u.Shown number) : (Stmt.whileLoop c b step).Shown number := by
  obtain ⟨f, hf⟩ := hc
  obtain ⟨g, hg⟩ := hb
  cases step with
  | none => exact ⟨_, (Parts.cons hf (.cons hg (.nil _))).node .whileLoop (by decide) rfl⟩
  | some u =>
    obtain ⟨k, hk⟩ := hs u rfl
    exact ⟨_, (Parts.cons hf (.cons hg (.cons hk (.nil _)))).node .whileLoop (by decide) rfl⟩

theorem ret {value : Option Expr} (ht : keyword.Lexed) (hkind : keyword.kind = .kwReturn)
    (h : ∀ e, value = some e → e.Shown number) : (Stmt.ret keyword value).Shown number := by
  have hkeyword := ht.unplaced_eq hkind (by decide)
  cases value with
  | none =>
    have hshows := (Parts.nil number).node .ret (by decide) rfl
    rw [← hkeyword] at hshows
    exact ⟨_, hshows⟩
  | some e =>
    obtain ⟨f, hf⟩ := h e rfl
    have hshows := (Parts.cons hf (.nil _)).node .ret (by decide) rfl
    rw [← hkeyword] at hshows
    exact ⟨_, hshows⟩

theorem breakLoop (ht : keyword.Lexed) (hkind : keyword.kind = .kwBreak) :
    (Stmt.breakLoop keyword).Shown number := by
  have hshows := (Parts.nil number).node .breakLoop (by decide) rfl
  rw [← ht.unplaced_eq hkind (by decide)] at hshows
  exact ⟨_, hshows⟩

theorem continueLoop (ht : keyword.Lexed) (hkind : keyword.kind = .kwContinue) :
    (Stmt.continueLoop keyword).Shown number := by
  have hshows := (Parts.nil number).node .continueLoop (by decide) rfl
  rw [← ht.unplaced_eq hkind (by decide)] at hshows
  exact ⟨_, hshows⟩

end Stmt.Shown

end statements

end LoxLang
