import LoxLang.Proofs.Number.Texts
import LoxLang.Proofs.Token.Tiles
import LoxLang.Proofs.Tree.Occurrence
import LoxLang.Proofs.Written.Forms
import LoxLang.Tree.Grammar.Expression

namespace LoxLang

def Token.unplaced (t : Token) : Token := { t with line := 0 }

/-- The name under which infinity is printed. -/
def infinityName : Token := ⟨.identifier, "inf", 0, none⟩

/-- A number that is too large for a finite double is printed as a mention of a variable is. -/
def Literal.essence (v : Literal) : Expr :=
  match v with
  | .number x => if x = Number.infinity then .ref infinityName none else .literal v
  | _ => .literal v

mutual

/-- An expression without lines, and with the mention of a variable for each number that is infinite. -/
def Expr.essence : Expr → Expr
  | .literal v => v.essence
  | .ref name hops => .ref name.unplaced hops
  | .self keyword hops => .self keyword.unplaced hops
  | .assign name hops e => .assign name.unplaced hops e.essence
  | .group e => .group e.essence
  | .unary op e => .unary op.unplaced e.essence
  | .binary l op r => .binary l.essence op.unplaced r.essence
  | .logical l op r => .logical l.essence op.unplaced r.essence
  | .ternary c y n _ => .ternary c.essence y.essence n.essence 0
  | .call f paren args => .call f.essence paren.unplaced (essenceOfExprs args)
  | .property o name => .property o.essence name.unplaced
  | .setProperty o name v => .setProperty o.essence name.unplaced v.essence
  | .function f => .function f.essence
  | .list es => .list (essenceOfExprs es)
  | .ofStmt t => .ofStmt t.essence
  | .stub s => .stub s

def essenceOfExprs : List Expr → List Expr
  | [] => []
  | e :: es => e.essence :: essenceOfExprs es

def Lambda.essence : Lambda → Lambda
  | .mk params body => ⟨params.map Token.unplaced, essenceOfStmts body⟩

def Stmt.essence : Stmt → Stmt
  | .expression e => .expression e.essence
  | .print e => .print e.essence
  | .varDecl name none => .varDecl name.unplaced none
  | .varDecl name (some e) => .varDecl name.unplaced (some e.essence)
  | .funDecl name f => .funDecl name.unplaced f.essence
  | .classDecl name ms => .classDecl name.unplaced (essenceOfMethods ms)
  | .block ss => .block (essenceOfStmts ss)
  | .ifThen c y none => .ifThen c.essence y.essence none
  | .ifThen c y (some n) => .ifThen c.essence y.essence (some n.essence)
  | .whileLoop c b none => .whileLoop c.essence b.essence none
  | .whileLoop c b (some s) => .whileLoop c.essence b.essence (some s.essence)
  | .ret keyword none => .ret keyword.unplaced none
  | .ret keyword (some e) => .ret keyword.unplaced (some e.essence)
  | .breakLoop keyword => .breakLoop keyword.unplaced
  | .continueLoop keyword => .continueLoop keyword.unplaced
  | .ofExpr e => .ofExpr e.essence

def essenceOfStmts : List Stmt → List Stmt
  | [] => []
  | t :: ts => t.essence :: essenceOfStmts ts

def essenceOfMethods : List Method → List Method
  | [] => []
  | .mk name f :: ms => ⟨name.unplaced, f.essence⟩ :: essenceOfMethods ms

end

def Method.essence (m : Method) : Method := ⟨m.name.unplaced, m.definition.essence⟩

@[simp]
theorem essenceOfExprs_eq (es : List Expr) : essenceOfExprs es = es.map Expr.essence := by
  induction es with
  | nil => rfl
  | cons e es ih => simp [essenceOfExprs, ih]

@[simp]
theorem essenceOfStmts_eq (ts : List Stmt) : essenceOfStmts ts = ts.map Stmt.essence := by
  induction ts with
  | nil => rfl
  | cons t ts ih => simp [essenceOfStmts, ih]

@[simp]
theorem essenceOfMethods_eq (ms : List Method) : essenceOfMethods ms = ms.map Method.essence := by
  induction ms with
  | nil => rfl
  | cons m ms ih =>
    obtain ⟨name, f⟩ := m
    simp [essenceOfMethods, ih, Method.essence, Method.name, Method.definition]

/-- How the tokens of a kind are spelled, where all are spelled the same. -/
def Token.Kind.spelling (kind : Token.Kind) : List Char :=
  match (Token.signs ++ Token.keywords.map fun entry => (entry.1.toList, entry.2)).find? (·.2 = kind) with
  | some entry => entry.1
  | none => []

theorem Token.Lexeme.spelled {kind : Token.Kind} {t : List Char} {literal : Option Literal}
    (h : Token.Lexeme kind t literal) (hkind : kind ∉ [Token.Kind.identifier, .string, .number]) :
    t = kind.spelling ∧ literal = none := by
  cases h with
  | sign h =>
    have hall : ∀ entry ∈ Token.signs, entry.1 = entry.2.spelling := by decide
    exact ⟨hall _ h, rfl⟩
  | keyword _ h =>
    have hall : ∀ entry ∈ Token.keywords, entry.1.toList = entry.2.spelling := by decide
    exact ⟨by simpa using hall _ h, rfl⟩
  | string | whole | decimal | identifier => simp at hkind

inductive Head where
  | group | choice | call | get | put | assign | list | function
  | expression | print | varDecl | classDecl | block | ifThen | whileLoop | ret | breakLoop | continueLoop
  | op (kind : Token.Kind)
deriving DecidableEq

namespace Head

def word : Head → String
  | group => "group" | choice => "?:" | call => "call" | get => "." | put => ".=" | assign => "="
  | list => "list" | function => "fun" | expression => ";" | print => "print" | varDecl => "var"
  | classDecl => "class" | block => "block" | ifThen => "if" | whileLoop => "while" | ret => "return"
  | breakLoop => "break" | continueLoop => "continue"
  | op kind => String.ofList kind.spelling

def operators : List Token.Kind := [.bang, .minus] ++ Grammar.binaryLevels.flatten ++ [.kwOr, .kwAnd]

def all : List Head :=
  [group, choice, call, get, put, assign, list, function, expression, print, varDecl, classDecl, block, ifThen,
    whileLoop, ret, breakLoop, continueLoop] ++ operators.map op

def ofWord? (text : List Char) : Option Head := all.find? (·.word.toList = text)

theorem ofWord?_word : ∀ h ∈ all, ofWord? h.word.toList = some h := by decide

end Head

def Token.Kind.token (kind : Token.Kind) : Token := ⟨kind, String.ofList kind.spelling, 0, none⟩

namespace Form

def identifier (text : List Char) : Token := ⟨.identifier, String.ofList text, 0, none⟩

def name? : Form → Option Token
  | atom text => some (identifier text)
  | node _ => none

def expr? : Option Node → Option Expr
  | some (.expr e) => some e
  | _ => none

def stmt? : Option Node → Option Stmt
  | some (.stmt t) => some t
  | _ => none

def method? : Option Node → Option Method
  | some (.stmt (.funDecl name f)) => some ⟨name, f⟩
  | _ => none

theorem filterMap_expr? (es : List Expr) :
    (es.map fun e => some (Node.expr e.essence)).filterMap expr? = es.map Expr.essence := by
  simp [List.filterMap_map, Function.comp_def, expr?]

theorem filterMap_stmt? (ts : List Stmt) :
    (ts.map fun t => some (Node.stmt t.essence)).filterMap stmt? = ts.map Stmt.essence := by
  simp [List.filterMap_map, Function.comp_def, stmt?]

theorem filterMap_method? (ms : List Method) :
    (ms.map fun m => some (Node.stmt (Stmt.funDecl m.name m.definition).essence)).filterMap method? =
      ms.map Method.essence := by
  simp [List.filterMap_map, Function.comp_def, method?, Stmt.essence, Method.essence]

/-- The node that a list with this head and these parts stands for, if the parts stand for these nodes. -/
def assemble : Head → List Form → List (Option Node) → Option Node
  | .group, _, [some (.expr e)] => some (.expr (.group e))
  | .op kind, _, [some (.expr e)] => some (.expr (.unary kind.token e))
  | .op kind, _, [some (.expr l), some (.expr r)] =>
    some (.expr (if kind ∈ [.kwOr, .kwAnd] then .logical l kind.token r else .binary l kind.token r))
  | .choice, _, [some (.expr c), some (.expr y), some (.expr n)] => some (.expr (.ternary c y n 0))
  | .call, _, some (.expr f) :: args => some (.expr (.call f Token.Kind.rightParen.token (args.filterMap expr?)))
  | .get, atom name :: _, [_, some (.expr o)] => some (.expr (.property o (identifier name)))
  | .put, atom name :: _, [_, some (.expr o), some (.expr v)] =>
    some (.expr (.setProperty o (identifier name) v))
  | .assign, atom name :: _, [_, some (.expr v)] => some (.expr (.assign (identifier name) none v))
  | .list, _, es => some (.expr (.list (es.filterMap expr?)))
  | .function, node params :: _, _ :: body =>
    some (.expr (.function ⟨params.filterMap name?, body.filterMap stmt?⟩))
  | .function, atom name :: node params :: _, _ :: _ :: body =>
    some (.stmt (.funDecl (identifier name) ⟨params.filterMap name?, body.filterMap stmt?⟩))
  | .expression, _, [some (.expr e)] => some (.stmt (.expression e))
  | .print, _, [some (.expr e)] => some (.stmt (.print e))
  | .varDecl, [atom name], _ => some (.stmt (.varDecl (identifier name) none))
  | .varDecl, atom name :: _, [_, some (.expr e)] => some (.stmt (.varDecl (identifier name) (some e)))
  | .classDecl, atom name :: _, _ :: ms => some (.stmt (.classDecl (identifier name) (ms.filterMap method?)))
  | .block, _, ss => some (.stmt (.block (ss.filterMap stmt?)))
  | .ifThen, _, [some (.expr c), some (.stmt y)] => some (.stmt (.ifThen c y none))
  | .ifThen, _, [some (.expr c), some (.stmt y), some (.stmt n)] => some (.stmt (.ifThen c y (some n)))
  | .whileLoop, _, [some (.expr c), some (.stmt b)] => some (.stmt (.whileLoop c b none))
  | .whileLoop, _, [some (.expr c), some (.stmt b), some (.stmt s)] => some (.stmt (.whileLoop c b (some s)))
  | .ret, _, [] => some (.stmt (.ret Token.Kind.kwReturn.token none))
  | .ret, _, [some (.expr e)] => some (.stmt (.ret Token.Kind.kwReturn.token (some e)))
  | .breakLoop, _, _ => some (.stmt (.breakLoop Token.Kind.kwBreak.token))
  | .continueLoop, _, _ => some (.stmt (.continueLoop Token.Kind.kwContinue.token))
  | _, _, _ => none

variable (number : List Char → Float)

/-- What an atom stands for, by its first character or as a word. -/
def leaf (text : List Char) : Expr :=
  match text with
  | '\"' :: rest => .literal (.text (String.ofList rest.dropLast))
  | _ =>
    if text.head?.any Char.isDigit then .literal (.number (number text))
    else
      match Token.wordKind (String.ofList text) with
      | .kwNil => .literal .nil
      | .kwTrue => .literal (.bool true)
      | .kwFalse => .literal (.bool false)
      | .kwThis => .self Token.Kind.kwThis.token none
      | _ => .ref (identifier text) none

theorem leaf_digit {c : Char} {cs : List Char} (h : c.isDigit) :
    leaf number (c :: cs) = .literal (.number (number (c :: cs))) := by
  have hquote : c ≠ '\"' := by
    rintro rfl
    simp at h
  unfold leaf
  split
  next he => exact absurd (List.cons.inj he).1 hquote
  next => rw [if_pos (by simpa using h)]

mutual

/-- The node that a form stands for, where `number` says what numbers the numerals are. -/
def node? : Form → Option Node
  | atom text => some (.expr (leaf number text))
  | node (atom word :: parts) => (Head.ofWord? word).bind fun head => assemble head parts (nodes? parts)
  | node _ => none

def nodes? : List Form → List (Option Node)
  | [] => []
  | f :: fs => f.node? :: nodes? fs

end

end Form

end LoxLang
