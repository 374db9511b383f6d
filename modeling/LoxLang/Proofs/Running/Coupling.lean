import LoxLang.Evaluator
import LoxLang.Proofs.Running.Related
import LoxLang.Proofs.Tree.Occurrence

namespace LoxLang

/-- Labels for frames: the names that a frame of each may hold, and what the second run calls them. The
frame of the globals, with the native functions in it, is that of `top`. -/
structure Labelling where
  Label : Type
  top : Label
  holds : Label → String → Prop
  rename : Label → String → String
  rename_injective : ∀ ℓ, Function.Injective (rename ℓ)
  rename_self : ∀ ℓ, rename ℓ selfName = selfName
  rename_top : ∀ name, rename top name = name
  holds_native : ∀ n : Native, holds top n.name

namespace Labelling

variable (L : Labelling)

def head (Γ : List L.Label) : L.Label := Γ.headD L.top

def Declared (ℓ : L.Label) (name name' : Token) : Prop :=
  name'.lexeme = L.rename ℓ name.lexeme ∧ L.holds ℓ name.lexeme

/-- A declaration that is also shown by name, and so keeps it. -/
def Kept (ℓ : L.Label) (name name' : Token) : Prop :=
  L.Declared ℓ name name' ∧ name'.lexeme = name.lexeme

/-- Two nodes of one form, with paired nodes below them, inside frames of these labels. Mentions may
differ in their names: what each of the runs finds under them is said elsewhere. -/
inductive Alike (pairs : List L.Label → Node → Node → Prop) (Γ : List L.Label) : Node → Node → Prop
  | literal (v : Literal) : Alike pairs Γ (.expr (.literal v)) (.expr (.literal v))
  | ref (name name' : Token) (hops hops' : Option Nat) :
    Alike pairs Γ (.expr (.ref name hops)) (.expr (.ref name' hops'))
  | self (keyword keyword' : Token) (hops hops' : Option Nat) :
    Alike pairs Γ (.expr (.self keyword hops)) (.expr (.self keyword' hops'))
  | assign (name name' : Token) (hops hops' : Option Nat) {e e' : Expr}
      (he : pairs Γ (.expr e) (.expr e')) :
    Alike pairs Γ (.expr (.assign name hops e)) (.expr (.assign name' hops' e'))
  | group {e e' : Expr} (he : pairs Γ (.expr e) (.expr e')) :
    Alike pairs Γ (.expr (.group e)) (.expr (.group e'))
  | unary (op : Token) {e e' : Expr} (he : pairs Γ (.expr e) (.expr e')) :
    Alike pairs Γ (.expr (.unary op e)) (.expr (.unary op e'))
  | binary (op : Token) {l r l' r' : Expr} (hl : pairs Γ (.expr l) (.expr l'))
      (hr : pairs Γ (.expr r) (.expr r')) :
    Alike pairs Γ (.expr (.binary l op r)) (.expr (.binary l' op r'))
  | logical (op : Token) {l r l' r' : Expr} (hl : pairs Γ (.expr l) (.expr l'))
      (hr : pairs Γ (.expr r) (.expr r')) :
    Alike pairs Γ (.expr (.logical l op r)) (.expr (.logical l' op r'))
  | ternary (line : Int) {c y n c' y' n' : Expr} (hc : pairs Γ (.expr c) (.expr c'))
      (hy : pairs Γ (.expr y) (.expr y')) (hn : pairs Γ (.expr n) (.expr n')) :
    Alike pairs Γ (.expr (.ternary c y n line)) (.expr (.ternary c' y' n' line))
  | call (paren : Token) {f f' : Expr} {es es' : List Expr} (hf : pairs Γ (.expr f) (.expr f'))
      (hes : List.Forall₂ (fun e e' => pairs Γ (.expr e) (.expr e')) es es') :
    Alike pairs Γ (.expr (.call f paren es)) (.expr (.call f' paren es'))
  | property (name : Token) {o o' : Expr} (ho : pairs Γ (.expr o) (.expr o')) :
    Alike pairs Γ (.expr (.property o name)) (.expr (.property o' name))
  | setProperty (name : Token) {o v o' v' : Expr} (ho : pairs Γ (.expr o) (.expr o'))
      (hv : pairs Γ (.expr v) (.expr v')) :
    Alike pairs Γ (.expr (.setProperty o name v)) (.expr (.setProperty o' name v'))
  | function {f f' : Lambda} (hf : pairs Γ (.lambda f) (.lambda f')) :
    Alike pairs Γ (.expr (.function f)) (.expr (.function f'))
  | list {es es' : List Expr} (hes : List.Forall₂ (fun e e' => pairs Γ (.expr e) (.expr e')) es es') :
    Alike pairs Γ (.expr (.list es)) (.expr (.list es'))
  | lambda (ℓ : L.Label) {f f' : Lambda} (hparams : List.Forall₂ (L.Declared ℓ) f.params f'.params)
      (hbody : List.Forall₂ (fun t t' => pairs (ℓ :: Γ) (.stmt t) (.stmt t')) f.body f'.body) :
    Alike pairs Γ (.lambda f) (.lambda f')
  | expression {e e' : Expr} (he : pairs Γ (.expr e) (.expr e')) :
    Alike pairs Γ (.stmt (.expression e)) (.stmt (.expression e'))
  | print {e e' : Expr} (he : pairs Γ (.expr e) (.expr e')) :
    Alike pairs Γ (.stmt (.print e)) (.stmt (.print e'))
  | varDecl {name name' : Token} {initial initial' : Option Expr}
      (hname : L.Declared (L.head Γ) name name')
      (hinitial : Option.Rel (fun e e' => pairs Γ (.expr e) (.expr e')) initial initial') :
    Alike pairs Γ (.stmt (.varDecl name initial)) (.stmt (.varDecl name' initial'))
  | funDecl {name name' : Token} {f f' : Lambda} (hname : L.Kept (L.head Γ) name name')
      (hf : pairs Γ (.lambda f) (.lambda f')) :
    Alike pairs Γ (.stmt (.funDecl name f)) (.stmt (.funDecl name' f'))
  | classDecl {name name' : Token} {ms ms' : List Method} (hname : L.Kept (L.head Γ) name name')
      (hms : List.Forall₂ (fun m m' => m'.name.lexeme = m.name.lexeme ∧ ∃ ℓ, L.holds ℓ selfName ∧
        pairs (ℓ :: Γ) (.lambda m.definition) (.lambda m'.definition)) ms ms') :
    Alike pairs Γ (.stmt (.classDecl name ms)) (.stmt (.classDecl name' ms'))
  | block (ℓ : L.Label) {ss ss' : List Stmt}
      (hss : List.Forall₂ (fun t t' => pairs (ℓ :: Γ) (.stmt t) (.stmt t')) ss ss') :
    Alike pairs Γ (.stmt (.block ss)) (.stmt (.block ss'))
  | ifThen {c c' : Expr} {y y' : Stmt} {no no' : Option Stmt} (hc : pairs Γ (.expr c) (.expr c'))
      (hy : pairs Γ (.stmt y) (.stmt y'))
      (hno : Option.Rel (fun t t' => pairs Γ (.stmt t) (.stmt t')) no no') :
    Alike pairs Γ (.stmt (.ifThen c y no)) (.stmt (.ifThen c' y' no'))
  | whileLoop {c c' : Expr} {b b' : Stmt} {step step' : Option Stmt} (hc : pairs Γ (.expr c) (.expr c'))
      (hb : pairs Γ (.stmt b) (.stmt b'))
      (hstep : Option.Rel (fun t t' => pairs Γ (.stmt t) (.stmt t')) step step') :
    Alike pairs Γ (.stmt (.whileLoop c b step)) (.stmt (.whileLoop c' b' step'))
  | ret (keyword keyword' : Token) {value value' : Option Expr}
      (hvalue : Option.Rel (fun e e' => pairs Γ (.expr e) (.expr e')) value value') :
    Alike pairs Γ (.stmt (.ret keyword value)) (.stmt (.ret keyword' value'))
  | breakLoop (keyword keyword' : Token) :
    Alike pairs Γ (.stmt (.breakLoop keyword)) (.stmt (.breakLoop keyword'))
  | continueLoop (keyword keyword' : Token) :
    Alike pairs Γ (.stmt (.continueLoop keyword)) (.stmt (.continueLoop keyword'))

end Labelling

/-- Paired nodes for two runs. The first run may ask an oracle, whose answers are right when they fit the
labels of the frames of the whole run. Both runs end alike, in a way that is allowed, unless the first
escapes: then nothing is said of the second. -/
structure Coupling extends Labelling where
  pairs : List Label → Node → Node → Prop
  alike : ∀ {Γ j j'}, pairs Γ j j' → toLabelling.Alike pairs Γ j j'
  Oracle : Type
  fits : Oracle → List Label → Prop
  fits_mono : ∀ {o w v}, w <+: v → fits o v → fits o w
  allowed : Stop → Prop
  allowed_fault : ∀ f, allowed (.fault f)
  allowed_endless : allowed .endless
  escapes : Stop → Prop
  escapes_fault : ∀ {cause line}, escapes (.fault ⟨cause, none⟩) → escapes (.fault ⟨cause, line⟩)

namespace Coupling

variable (C : Coupling)

inductive Chains (w : List C.Label) : Chain → List C.Label → Prop
  | root (h : w[0]? = some C.top) : Chains w (.root 0) []
  | link {f : Nat} {outer : Chain} {ℓ : C.Label} {Γ : List C.Label} (h : w[f]? = some ℓ)
      (hΓ : Chains w outer Γ) : Chains w (.link f outer) (ℓ :: Γ)

/-- Two functions on one chain with paired definitions, inside further frames of the given labels. -/
structure Routines (w inner : List C.Label) (r r' : Routine) : Prop where
  name : r'.name = r.name
  closure : r'.closure = r.closure
  isInitializer : r'.isInitializer = r.isInitializer
  paired : ∃ Γ, C.Chains w r.closure Γ ∧ C.pairs (inner ++ Γ) (.lambda r.definition) (.lambda r'.definition)

def Methods (w : List C.Label) (r r' : Routine) : Prop :=
  ∃ ℓ, C.holds ℓ selfName ∧ C.Routines w [ℓ] r r'

structure Classes (w : List C.Label) (c c' : Class) : Prop where
  name : c'.name = c.name
  methods : Bindings.Rel id (fun _ => True) (C.Methods w) c.methods c'.methods

inductive Values (w : List C.Label) : Value → Value → Prop
  | nil : Values w .nil .nil
  | bool (b : Bool) : Values w (.bool b) (.bool b)
  | number (x : Float) : Values w (.number x) (.number x)
  | text (t : String) : Values w (.text t) (.text t)
  | list (id : Nat) : Values w (.list id) (.list id)
  | native (n : Native) : Values w (.native n) (.native n)
  | function (id : Nat) {r r' : Routine} (h : C.Routines w [] r r') :
    Values w (.function id r) (.function id r')
  | classDef (id : Nat) {c c' : Class} (h : C.Classes w c c') : Values w (.classDef id c) (.classDef id c')
  | object (id : Nat) {c c' : Class} (h : C.Classes w c c') : Values w (.object id c) (.object id c')

abbrev Contents (w : List C.Label) (ℓ : C.Label) : Bindings Value → Bindings Value → Prop :=
  Bindings.Rel (C.rename ℓ) (C.holds ℓ) (C.Values w)

structure Stores (w : List C.Label) (s s' : Store) : Prop where
  top : w[0]? = some C.top
  size : s.frames.size = w.length
  size' : s'.frames.size = w.length
  frame : ∀ f ℓ, w[f]? = some ℓ → C.Contents w ℓ (s.frames.frame f) (s'.frames.frame f)
  chain : s'.chain = s.chain
  lists : Slots (Slots (C.Values w)) s.lists s'.lists
  objects : Slots (Bindings.Rel id (fun _ => True) (C.Values w)) s.objects s'.objects
  fresh : s'.fresh = s.fresh
  printed : s'.printed = s.printed
  clock : s'.clock = s.clock

end Coupling

end LoxLang
