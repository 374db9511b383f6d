import LoxLang.Tree

namespace LoxLang.Phrase

variable {α : Type}

/-- Operands and operators, grouped to the left. -/
inductive LeftChain (operand : List Token → Expr → Prop) (ops : List Token.Kind)
    (join : Expr → Token → Expr → Expr) : List Token → Expr → Prop
  | first {ts : List Token} {e : Expr} (he : operand ts e) : LeftChain operand ops join ts e
  | more {ls rs : List Token} {op : Token} {l r : Expr} (hl : LeftChain operand ops join ls l)
      (hop : op.kind ∈ ops) (hr : operand rs r) :
    LeftChain operand ops join (ls ++ op :: rs) (join l op r)

/-- Conditionals grouped to the left, on the line on which the first selector ends. -/
inductive ChoiceChain (selector yes : List Token → Expr → Prop) : Int → List Token → Expr → Prop
  | first {ts : List Token} {last : Token} {e : Expr} (he : selector (ts ++ [last]) e) :
    ChoiceChain selector yes last.line (ts ++ [last]) e
  | more {line : Int} {ss ys ns : List Token} {question colon : Token} {s y n : Expr}
      (hs : ChoiceChain selector yes line ss s) (hquestion : question.kind = .question)
      (hy : yes ys y) (hcolon : colon.kind = .colon) (hn : selector ns n) :
    ChoiceChain selector yes line (ss ++ question :: ys ++ colon :: ns) (.ternary s y n line)

inductive Separated (item : List Token → α → Prop) : List Token → List α → Prop
  | one {ts : List Token} {a : α} (ha : item ts a) : Separated item ts [a]
  | more {ts us : List Token} {comma : Token} {a : α} {as : List α} (ha : item ts a)
      (hcomma : comma.kind = .comma) (has : Separated item us as) :
    Separated item (ts ++ comma :: us) (a :: as)

/-- At most so many items with commas between them. -/
inductive Listed (item : List Token → α → Prop) (limit : Nat) : List Token → List α → Prop
  | none : Listed item limit [] []
  | some {ts : List Token} {as : List α} (has : Separated item ts as) (hlimit : as.length ≤ limit) :
    Listed item limit ts as

inductive Optional (item : List Token → α → Prop) : List Token → Option α → Prop
  | none : Optional item [] none
  | some {ts : List Token} {a : α} (ha : item ts a) : Optional item ts (some a)

inductive Parameter : List Token → Token → Prop
  | name {t : Token} (ht : t.kind = .identifier) : Parameter [t] t

/-- The loop that a `for` stands for: its step after each pass, its first clause before, in a block. -/
def forLoop (initial : Option Stmt) (condition step : Option Expr) (body : Stmt) : Stmt :=
  let loop : Stmt := .whileLoop (condition.getD (.literal (.bool true))) body (step.map .expression)
  match initial with
  | none => loop
  | some s => .block [s, loop]

mutual

inductive Expression : List Token → Expr → Prop
  | assign {name equal : Token} {vs : List Token} {v : Expr} (hname : name.kind = .identifier)
      (hequal : equal.kind = .equal) (hv : Expression vs v) :
    Expression (name :: equal :: vs) (.assign name none v)
  | set {os vs : List Token} {dot name equal : Token} {o v : Expr} (ho : Call os o)
      (hdot : dot.kind = .dot) (hname : name.kind = .identifier) (hequal : equal.kind = .equal)
      (hv : Expression vs v) :
    Expression (os ++ dot :: name :: equal :: vs) (.setProperty o name v)
  | value {ts : List Token} {e : Expr} (h : Disjunction ts e) : Expression ts e

inductive Disjunction : List Token → Expr → Prop
  | chain {ts : List Token} {e : Expr} (h : LeftChain Conjunction [.kwOr] .logical ts e) :
    Disjunction ts e

inductive Conjunction : List Token → Expr → Prop
  | chain {ts : List Token} {e : Expr} (h : LeftChain Conditional [.kwAnd] .logical ts e) :
    Conjunction ts e

inductive Conditional : List Token → Expr → Prop
  | chain {line : Int} {ts : List Token} {e : Expr} (h : ChoiceChain Equality Conditional line ts e) :
    Conditional ts e

inductive Equality : List Token → Expr → Prop
  | chain {ts : List Token} {e : Expr}
      (h : LeftChain Comparison [.bangEqual, .equalEqual] .binary ts e) :
    Equality ts e

inductive Comparison : List Token → Expr → Prop
  | chain {ts : List Token} {e : Expr}
      (h : LeftChain Term [.greater, .greaterEqual, .less, .lessEqual] .binary ts e) :
    Comparison ts e

inductive Term : List Token → Expr → Prop
  | chain {ts : List Token} {e : Expr} (h : LeftChain Factor [.minus, .plus] .binary ts e) : Term ts e

inductive Factor : List Token → Expr → Prop
  | chain {ts : List Token} {e : Expr} (h : LeftChain Unary [.slash, .star] .binary ts e) : Factor ts e

inductive Unary : List Token → Expr → Prop
  | operator {op : Token} {ts : List Token} {e : Expr} (hop : op.kind ∈ [.bang, .minus])
      (he : Unary ts e) :
    Unary (op :: ts) (.unary op e)
  | operand {ts : List Token} {e : Expr} (h : Call ts e) : Unary ts e

inductive Call : List Token → Expr → Prop
  | primary {ts : List Token} {e : Expr} (h : Primary ts e) : Call ts e
  | call {fs as : List Token} {left right : Token} {f : Expr} {arguments : List Expr} (hf : Call fs f)
      (hleft : left.kind = .leftParen) (has : Listed Expression 255 as arguments)
      (hright : right.kind = .rightParen) :
    Call (fs ++ left :: as ++ [right]) (.call f right arguments)
  | property {os : List Token} {dot name : Token} {o : Expr} (ho : Call os o) (hdot : dot.kind = .dot)
      (hname : name.kind = .identifier) :
    Call (os ++ [dot, name]) (.property o name)

inductive Primary : List Token → Expr → Prop
  | no {t : Token} (ht : t.kind = .kwFalse) : Primary [t] (.literal (.bool false))
  | yes {t : Token} (ht : t.kind = .kwTrue) : Primary [t] (.literal (.bool true))
  | nil {t : Token} (ht : t.kind = .kwNil) : Primary [t] (.literal .nil)
  | literal {t : Token} (ht : t.kind ∈ [.number, .string]) : Primary [t] (.literal (t.literal.getD .nil))
  | self {t : Token} (ht : t.kind = .kwThis) : Primary [t] (.self t none)
  | ref {t : Token} (ht : t.kind = .identifier) : Primary [t] (.ref t none)
  | function {word : Token} {ts : List Token} {f : Lambda} (hword : word.kind = .kwFun)
      (hf : Function ts f) :
    Primary (word :: ts) (.function f)
  | list {left right : Token} {ts : List Token} {es : List Expr} (hleft : left.kind = .leftBracket)
      (hes : Listed Expression 1000 ts es) (hright : right.kind = .rightBracket) :
    Primary (left :: ts ++ [right]) (.list es)
  | group {left right : Token} {ts : List Token} {e : Expr} (hleft : left.kind = .leftParen)
      (he : Expression ts e) (hright : right.kind = .rightParen) :
    Primary (left :: ts ++ [right]) (.group e)

/-- Parameters and body; no loop around a function reaches into it. -/
inductive Function : List Token → Lambda → Prop
  | mk {left right opening closing : Token} {ps bs : List Token} {params : List Token}
      {body : List Stmt} (hleft : left.kind = .leftParen) (hps : Listed Parameter 255 ps params)
      (hright : right.kind = .rightParen) (hopening : opening.kind = .leftBrace)
      (hbody : Declarations false bs body) (hclosing : closing.kind = .rightBrace) :
    Function (left :: ps ++ right :: opening :: bs ++ [closing]) (.mk params body)

inductive Methods : List Token → List Method → Prop
  | none : Methods [] []
  | more {name : Token} {ts us : List Token} {f : Lambda} {ms : List Method}
      (hname : name.kind = .identifier) (hf : Function ts f) (hms : Methods us ms) :
    Methods (name :: ts ++ us) (.mk name f :: ms)

inductive Variable : List Token → Stmt → Prop
  | plain {word name semicolon : Token} (hword : word.kind = .kwVar) (hname : name.kind = .identifier)
      (hsemicolon : semicolon.kind = .semicolon) :
    Variable [word, name, semicolon] (.varDecl name none)
  | initial {word name equal semicolon : Token} {es : List Token} {e : Expr}
      (hword : word.kind = .kwVar) (hname : name.kind = .identifier) (hequal : equal.kind = .equal)
      (he : Expression es e) (hsemicolon : semicolon.kind = .semicolon) :
    Variable (word :: name :: equal :: es ++ [semicolon]) (.varDecl name (some e))

inductive Clause : List Token → Option Stmt → Prop
  | none {semicolon : Token} (hsemicolon : semicolon.kind = .semicolon) : Clause [semicolon] none
  | varDecl {ts : List Token} {t : Stmt} (ht : Variable ts t) : Clause ts (some t)
  | expression {es : List Token} {e : Expr} {semicolon : Token} (he : Expression es e)
      (hsemicolon : semicolon.kind = .semicolon) :
    Clause (es ++ [semicolon]) (some (.expression e))

/-- The flags say whether the statement stands in a loop of its function, and whether it ends with an
`if` that has no `else`, to which an `else` after it would belong. -/
inductive Statement : Bool → Bool → List Token → Stmt → Prop
  | breakLoop {word semicolon : Token} (hword : word.kind = .kwBreak)
      (hsemicolon : semicolon.kind = .semicolon) :
    Statement true false [word, semicolon] (.breakLoop word)
  | continueLoop {word semicolon : Token} (hword : word.kind = .kwContinue)
      (hsemicolon : semicolon.kind = .semicolon) :
    Statement true false [word, semicolon] (.continueLoop word)
  | forLoop {loop dangling : Bool} {word left semicolon right : Token} {is cs ss bs : List Token}
      {initial : Option Stmt} {condition step : Option Expr} {body : Stmt}
      (hword : word.kind = .kwFor) (hleft : left.kind = .leftParen) (hinitial : Clause is initial)
      (hcondition : Optional Expression cs condition) (hsemicolon : semicolon.kind = .semicolon)
      (hstep : Optional Expression ss step) (hright : right.kind = .rightParen)
      (hbody : Statement true dangling bs body) :
    Statement loop dangling (word :: left :: is ++ cs ++ semicolon :: ss ++ right :: bs)
      (forLoop initial condition step body)
  | ifThen {loop dangling : Bool} {word left right : Token} {cs ys : List Token} {c : Expr} {y : Stmt}
      (hword : word.kind = .kwIf) (hleft : left.kind = .leftParen) (hc : Expression cs c)
      (hright : right.kind = .rightParen) (hy : Statement loop dangling ys y) :
    Statement loop true (word :: left :: cs ++ right :: ys) (.ifThen c y none)
  | ifElse {loop dangling : Bool} {word left right other : Token} {cs ys ns : List Token} {c : Expr}
      {y n : Stmt} (hword : word.kind = .kwIf) (hleft : left.kind = .leftParen)
      (hc : Expression cs c) (hright : right.kind = .rightParen) (hy : Statement loop false ys y)
      (hother : other.kind = .kwElse) (hn : Statement loop dangling ns n) :
    Statement loop dangling (word :: left :: cs ++ right :: ys ++ other :: ns) (.ifThen c y (some n))
  | print {loop : Bool} {word semicolon : Token} {es : List Token} {e : Expr}
      (hword : word.kind = .kwPrint) (he : Expression es e) (hsemicolon : semicolon.kind = .semicolon) :
    Statement loop false (word :: es ++ [semicolon]) (.print e)
  | ret {loop : Bool} {word semicolon : Token} {es : List Token} {value : Option Expr}
      (hword : word.kind = .kwReturn) (hvalue : Optional Expression es value)
      (hsemicolon : semicolon.kind = .semicolon) :
    Statement loop false (word :: es ++ [semicolon]) (.ret word value)
  | whileLoop {loop dangling : Bool} {word left right : Token} {cs bs : List Token} {c : Expr}
      {b : Stmt} (hword : word.kind = .kwWhile) (hleft : left.kind = .leftParen)
      (hc : Expression cs c) (hright : right.kind = .rightParen) (hb : Statement true dangling bs b) :
    Statement loop dangling (word :: left :: cs ++ right :: bs) (.whileLoop c b none)
  | block {loop : Bool} {opening closing : Token} {bs : List Token} {body : List Stmt}
      (hopening : opening.kind = .leftBrace) (hbody : Declarations loop bs body)
      (hclosing : closing.kind = .rightBrace) :
    Statement loop false (opening :: bs ++ [closing]) (.block body)
  | expression {loop : Bool} {es : List Token} {semicolon : Token} {e : Expr} (he : Expression es e)
      (hsemicolon : semicolon.kind = .semicolon) :
    Statement loop false (es ++ [semicolon]) (.expression e)

inductive Declaration : Bool → List Token → Stmt → Prop
  | classDecl {loop : Bool} {word name opening closing : Token} {ts : List Token} {ms : List Method}
      (hword : word.kind = .kwClass) (hname : name.kind = .identifier)
      (hopening : opening.kind = .leftBrace) (hms : Methods ts ms)
      (hclosing : closing.kind = .rightBrace) :
    Declaration loop (word :: name :: opening :: ts ++ [closing]) (.classDecl name ms)
  | funDecl {loop : Bool} {word name : Token} {ts : List Token} {f : Lambda}
      (hword : word.kind = .kwFun) (hname : name.kind = .identifier) (hf : Function ts f) :
    Declaration loop (word :: name :: ts) (.funDecl name f)
  | varDecl {loop : Bool} {ts : List Token} {t : Stmt} (ht : Variable ts t) : Declaration loop ts t
  | statement {loop dangling : Bool} {ts : List Token} {t : Stmt} (ht : Statement loop dangling ts t) :
    Declaration loop ts t

inductive Declarations : Bool → List Token → List Stmt → Prop
  | none {loop : Bool} : Declarations loop [] []
  | more {loop : Bool} {ts us : List Token} {t : Stmt} {rest : List Stmt}
      (ht : Declaration loop ts t) (hrest : Declarations loop us rest) :
    Declarations loop (ts ++ us) (t :: rest)

end

/-- The tokens of a program, without the end of the text, and its statements. -/
def Program (ts : List Token) (ss : List Stmt) : Prop := Declarations false ts ss

theorem LeftChain.of_ne {operand : List Token → Expr → Prop} {ops : List Token.Kind}
    {join : Expr → Token → Expr → Expr} {ts : List Token} {e : Expr}
    (h : LeftChain operand ops join ts e) (he : ∀ l op r, e ≠ join l op r) : operand ts e := by
  cases h with
  | first h => exact h
  | more => exact absurd rfl (he _ _ _)

theorem Disjunction.call {ts : List Token} {e : Expr} (h : Disjunction ts e)
    (hlogical : ∀ l op r, e ≠ .logical l op r) (hbinary : ∀ l op r, e ≠ .binary l op r)
    (hternary : ∀ s y n line, e ≠ .ternary s y n line) (hunary : ∀ op a, e ≠ .unary op a) :
    Call ts e := by
  obtain ⟨h⟩ := h
  obtain ⟨h⟩ := h.of_ne hlogical
  obtain ⟨h⟩ := h.of_ne hlogical
  have h : Equality ts e := by
    cases h with
    | first h => exact h
    | more => exact absurd rfl (hternary _ _ _ _)
  obtain ⟨h⟩ := h
  obtain ⟨h⟩ := h.of_ne hbinary
  obtain ⟨h⟩ := h.of_ne hbinary
  obtain ⟨h⟩ := h.of_ne hbinary
  cases h.of_ne hbinary with
  | operator => exact absurd rfl (hunary _ _)
  | operand h => exact h

theorem Disjunction.of_ref {ts : List Token} {name : Token} {hops : Option Nat}
    (h : Disjunction ts (.ref name hops)) : ts = [name] ∧ name.kind = .identifier := by
  cases h.call (by simp) (by simp) (by simp) (by simp) with
  | primary h =>
    cases h with
    | ref ht => exact ⟨rfl, ht⟩

theorem Disjunction.of_property {ts : List Token} {o : Expr} {name : Token}
    (h : Disjunction ts (.property o name)) :
    ∃ os dot, ts = os ++ [dot, name] ∧ Call os o ∧ dot.kind = .dot ∧ name.kind = .identifier := by
  cases h.call (by simp) (by simp) (by simp) (by simp) with
  | primary h => cases h
  | property ho hdot hname => exact ⟨_, _, rfl, ho, hdot, hname⟩

end LoxLang.Phrase
