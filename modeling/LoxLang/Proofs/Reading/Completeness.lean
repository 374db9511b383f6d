import LoxLang.Proofs.Reading.Accepts
import LoxLang.Proofs.Reading.Phrase

namespace LoxLang

/-- How tightly a token binds to an expression before it; nothing binds at 0. -/
def Token.Kind.binding : Token.Kind → Nat
  | .equal => 1
  | .kwOr => 2
  | .kwAnd => 3
  | .question => 4
  | .bangEqual | .equalEqual => 5
  | .greater | .greaterEqual | .less | .lessEqual => 6
  | .minus | .plus => 7
  | .slash | .star => 8
  | .leftParen | .dot => 9
  | _ => 0

abbrev Stops (level : Nat) (rest : List Token) : Prop := Next (fun kind => kind.binding < level) rest

theorem Next.stops {level level' : Nat} {rest : List Token} (h : Stops level rest) (hl : level ≤ level') :
    Stops level' rest := h.mono fun _ hkind => Nat.lt_of_lt_of_le hkind hl

theorem Next.other {level : Nat} {rest : List Token} (h : Stops level rest) {kind : Token.Kind}
    (hkind : level ≤ kind.binding) : Next (fun other => decide (other = kind) = false) rest :=
  h.mono fun _ hother => decide_eq_false fun he => absurd (he ▸ hother) (Nat.not_lt.2 hkind)

def Token.Kind.startsExpression (kind : Token.Kind) : Bool :=
  Grammar.startsOperand kind || kind ∈ [.bang, .minus]

namespace Phrase

def Starts (first : Token.Kind → Bool) (ts : List Token) : Prop :=
  ∃ t us, ts = t :: us ∧ first t.kind = true ∧ (t.kind = .kwFun → Next (· = .leftParen) us)

variable {first : Token.Kind → Bool} {ts : List Token} {e : Expr}

theorem Starts.append (h : Starts first ts) (us : List Token) : Starts first (ts ++ us) := by
  obtain ⟨t, ws, rfl, ht, hfun⟩ := h
  exact ⟨t, ws ++ us, rfl, ht, fun hkind => (hfun hkind).append us⟩

theorem Starts.next (h : Starts first ts) : Next (fun kind => first kind = true) ts := by
  obtain ⟨t, us, rfl, ht, -⟩ := h
  exact .cons ht us

theorem Starts.ne (h : Starts first ts) {kind : Token.Kind} (hkind : first kind = false) :
    Next (· ≠ kind) ts :=
  h.next.mono fun _ ht he => by simp [he, hkind] at ht

theorem Starts.of_kind {t : Token} {kind : Token.Kind} (ht : t.kind = kind) (us : List Token)
    (hkind : first kind = true ∧ kind ≠ .kwFun) : Starts first (t :: us) :=
  ⟨t, us, rfl, ht ▸ hkind.1, fun h => absurd (ht.symm.trans h) hkind.2⟩

theorem LeftChain.starts {operand : List Token → Expr → Prop} {ops : List Token.Kind}
    {join : Expr → Token → Expr → Expr} (h : LeftChain operand ops join ts e)
    (ho : ∀ ts e, operand ts e → Starts first ts) : Starts first ts := by
  induction h with
  | first he => exact ho _ _ he
  | more _ _ _ ih => exact ih.append _

theorem Primary.starts (h : Primary ts e) : Starts Grammar.startsOperand ts := by
  cases h with
  | function hword hf =>
    obtain ⟨hleft⟩ := hf
    exact ⟨_, _, rfl, by rw [hword]; decide, fun _ => .cons hleft _⟩
  | literal ht =>
    obtain ht | ht : _ ∨ _ := by simpa using ht
    · exact .of_kind ht _ (by decide)
    · exact .of_kind ht _ (by decide)
  | no ht | yes ht | nil ht | self ht | ref ht | list ht | group ht => exact .of_kind ht _ (by decide)

theorem Call.starts {ts : List Token} {e : Expr} : Call ts e → Starts Grammar.startsOperand ts
  | .primary h => h.starts
  | .call hf _ _ _ => (hf.starts.append _).append _
  | .property ho _ _ => ho.starts.append _

theorem Unary.starts (h : Unary ts e) : Starts Token.Kind.startsExpression ts := by
  cases h with
  | operator hop =>
    obtain hop | hop : _ ∨ _ := by simpa using hop
    · exact .of_kind hop _ (by decide)
    · exact .of_kind hop _ (by decide)
  | operand h =>
    obtain ⟨t, us, hts, ht, hfun⟩ := h.starts
    exact ⟨t, us, hts, by simp [Token.Kind.startsExpression, ht], hfun⟩

theorem Equality.starts (h : Equality ts e) : Starts Token.Kind.startsExpression ts := by
  obtain ⟨h⟩ := h
  refine h.starts fun ts e ⟨h⟩ => h.starts fun ts e ⟨h⟩ => h.starts fun ts e ⟨h⟩ => ?_
  exact h.starts fun ts e h => h.starts

theorem Conditional.starts (h : Conditional ts e) : Starts Token.Kind.startsExpression ts := by
  obtain ⟨h⟩ := h
  induction h with
  | first he => exact he.starts
  | more _ _ _ _ _ ih => exact (ih.append _).append _

theorem Disjunction.starts (h : Disjunction ts e) : Starts Token.Kind.startsExpression ts := by
  obtain ⟨h⟩ := h
  exact h.starts fun ts e ⟨h⟩ => h.starts fun ts e h => h.starts

theorem Disjunction.of_call (h : Call ts e) : Disjunction ts e := by
  obtain ⟨t, us, hts, -⟩ := h.starts
  obtain ⟨init, last, rfl⟩ := (List.eq_nil_or_concat ts).resolve_left (by simp [hts])
  rw [List.concat_eq_append] at h ⊢
  have he : Equality (init ++ [last]) e :=
    .chain (.first (.chain (.first (.chain (.first (.chain (.first (.operand h))))))))
  exact .chain (.first (.chain (.first (.chain (.first he)))))

theorem Expression.starts (h : Expression ts e) : Starts Token.Kind.startsExpression ts := by
  cases h with
  | assign hname => exact .of_kind hname _ (by decide)
  | set ho => exact (Disjunction.of_call ho).starts.append _
  | value h => exact h.starts

def startsStatement (kind : Token.Kind) : Bool := Grammar.startsPlainStmt kind || kind.startsExpression

theorem Statement.starts {loop dangling : Bool} {t : Stmt} (h : Statement loop dangling ts t) :
    Starts startsStatement ts := by
  cases h with
  | expression he =>
    obtain ⟨t, us, rfl, ht, hfun⟩ := he.starts
    exact ⟨t, us ++ _, rfl, by simp [startsStatement, ht], fun hkind => (hfun hkind).append _⟩
  | breakLoop h | continueLoop h | forLoop h | ifThen h | ifElse h | print h | ret h | whileLoop h
  | block h => exact .of_kind h _ (by decide)

theorem Declaration.next {loop : Bool} {t : Stmt} (h : Declaration loop ts t) :
    Next (fun kind => kind ≠ .eof ∧ kind ≠ .rightBrace ∧ kind ≠ .kwElse) ts := by
  cases h with
  | classDecl hword | funDecl hword => exact .cons (by simp [hword]) _
  | varDecl h =>
    cases h with
    | plain hword | initial hword => exact .cons (by simp [hword]) _
  | statement h =>
    refine h.starts.next.mono fun kind hkind => ?_
    cases kind <;> simp_all [startsStatement, Grammar.startsPlainStmt, Token.Kind.startsExpression, Grammar.startsOperand]

theorem Separated.next {α : Type} {I : List Token → α → Prop} {P : Token.Kind → Prop}
    {as : List α} (h : Separated I ts as) (hi : ∀ ts a, I ts a → Next P ts) : Next P ts := by
  cases h with
  | one ha => exact hi _ _ ha
  | more ha => exact (hi _ _ ha).append _

theorem Separated.length_le {α : Type} {I : List Token → α → Prop} {as : List α}
    (h : Separated I ts as) : as.length ≤ ts.length + 1 := by
  induction h with
  | one => simp
  | more _ _ _ ih =>
    simp
    omega

end Phrase

namespace Grammar

open Reader Phrase

section expressions

variable {loop : Bool} {n : Nat} {operand : Reader Expr} {O : List Token → Expr → Prop}
  {ops : List Token.Kind} {join : Expr → Token → Expr → Expr}

theorem leftChain_accepts {level size : Nat} (hops : ∀ kind ∈ ops, kind.binding = level)
    (hend : .eof ∉ ops) (ho : ∀ ts e rest, ts.length ≤ size → O ts e → Stops (level + 1) rest →
      Accepts loop operand ts rest e)
    {ts : List Token} {e : Expr} (h : LeftChain O ops join ts e) (hsize : ts.length ≤ size) :
    ∃ passes ≤ ts.length, ∀ n us rest v, Stops (level + 1) (us ++ rest) →
      Accepts loop (leftTail ops join operand n e) us rest v →
      Accepts loop (leftAssoc (n + passes) ops join operand) (ts ++ us) rest v := by
  induction h with
  | first he =>
    exact ⟨0, Nat.zero_le _, fun n us rest v hrest h => .bind (ho _ _ _ hsize he hrest) h⟩
  | @more ls rs op l r hl hop hr ih =>
    simp only [List.length_append, List.length_cons] at hsize
    obtain ⟨passes, hpasses, ih⟩ := ih (by omega)
    refine ⟨passes + 1, by simp; omega, fun n us rest v hrest h => ?_⟩
    have hfollow : Stops (level + 1) ((op :: rs ++ us) ++ rest) :=
      .cons (by rw [hops _ hop]; exact Nat.lt_succ_self _) _
    have htail : Accepts loop (leftTail ops join operand (n + 1) l) (op :: rs ++ us) rest v :=
      .take (fun h => hend (h ▸ hop)) (by simpa using hop) (.bind (ho _ _ _ (by omega) hr hrest) h)
    have hall := ih (n + 1) (op :: rs ++ us) rest v hfollow htail
    rw [show n + 1 + passes = n + (passes + 1) by omega] at hall
    simpa using hall

theorem leftAssoc_accepts {level size : Nat} (hops : ∀ kind, kind ∈ ops ↔ kind.binding = level)
    (hlevel : 0 < level) (ho : ∀ ts e rest, ts.length ≤ size → O ts e → Stops (level + 1) rest →
      Accepts loop operand ts rest e)
    {ts rest : List Token} {e : Expr} (h : LeftChain O ops join ts e) (hsize : ts.length ≤ size)
    (hn : ts.length < n) (hrest : Stops level rest) :
    Accepts loop (leftAssoc n ops join operand) ts rest e := by
  have hend : .eof ∉ ops := fun h => absurd ((hops .eof).1 h) (Nat.ne_of_lt hlevel)
  obtain ⟨passes, hpasses, hchain⟩ :=
    leftChain_accepts (fun kind h => (hops kind).1 h) hend ho h hsize
  obtain ⟨m, rfl⟩ := Nat.exists_eq_add_of_lt (Nat.lt_of_le_of_lt hpasses hn)
  have hlast : Accepts loop (leftTail ops join operand (m + 1) e) [] rest e :=
    .skip (hrest.mono fun kind hkind =>
      decide_eq_false fun h => absurd ((hops kind).1 h) (Nat.ne_of_lt hkind)) .pure
  have hall := hchain (m + 1) [] rest e (hrest.stops (Nat.le_succ level)) hlast
  rwa [show m + 1 + passes = passes + m + 1 by omega, List.append_nil] at hall

/-- The reader reads the phrases of a size before what stops them. -/
def Reading {α : Type} (loop : Bool) (size level : Nat) (p : Reader α) (O : List Token → α → Prop) : Prop :=
  ∀ ts a rest, ts.length ≤ size → O ts a → Stops level rest → Accepts loop p ts rest a

variable {size : Nat} {unary conditional expression : Reader Expr} {block : Reader (List Stmt)}

theorem equality_accepts (hu : Reading loop size 9 unary Unary) (hn : size < n) :
    Reading loop size 5 (equality n unary) Equality := by
  have factor : Reading loop size 8 (leftAssoc n [.slash, .star] .binary unary) Factor :=
    fun ts e rest hsize ⟨h⟩ hrest => leftAssoc_accepts (fun kind => by cases kind <;> decide)
      (by decide) hu h hsize (by omega) hrest
  have term : Reading loop size 7 (leftAssoc n [.minus, .plus] .binary _) Term :=
    fun ts e rest hsize ⟨h⟩ hrest => leftAssoc_accepts (fun kind => by cases kind <;> decide)
      (by decide) factor h hsize (by omega) hrest
  have comparison : Reading loop size 6
      (leftAssoc n [.greater, .greaterEqual, .less, .lessEqual] .binary _) Comparison :=
    fun ts e rest hsize ⟨h⟩ hrest => leftAssoc_accepts (fun kind => by cases kind <;> decide)
      (by decide) term h hsize (by omega) hrest
  exact fun ts e rest hsize ⟨h⟩ hrest => leftAssoc_accepts (fun kind => by cases kind <;> decide)
    (by decide) comparison h hsize (by omega) hrest

theorem choiceChain_accepts {equality : Reader Expr} (he : Reading loop size 5 equality Equality)
    (hc : ∀ s < size, Reading loop s 4 conditional Conditional) {line : Int} {ts : List Token} {e : Expr}
    (h : ChoiceChain Equality Conditional line ts e) (hsize : ts.length ≤ size) :
    ∃ passes ≤ ts.length, ∀ n us rest v, Stops 5 (us ++ rest) →
      Accepts loop (conditionalTail equality conditional line n e) us rest v →
      Accepts loop (equality >>= fun selector => previous >>= fun last =>
        conditionalTail equality conditional last.line (n + passes) selector) (ts ++ us) rest v := by
  induction h with
  | @first ts last e h =>
    exact ⟨0, Nat.zero_le _, fun n us rest v hrest htail =>
      .bindPrevious (he _ _ _ hsize h hrest) htail⟩
  | @more line ss ys ns question colon s y no hs hquestion hy hcolon hn ih =>
    simp only [List.length_append, List.length_cons] at hsize
    obtain ⟨passes, hpasses, ih⟩ := ih (by omega)
    refine ⟨passes + 1, by simp; omega, fun n us rest v hrest h => ?_⟩
    have htail : Accepts loop (conditionalTail equality conditional line (n + 1) s)
        (question :: (ys ++ (colon :: (ns ++ us)))) rest v := by
      refine .take (by simp [hquestion]) (by simp [hquestion]) ?_
      refine .bind (hc ys.length (by omega) _ _ _ (Nat.le_refl _) hy ?_) ?_
      · exact .cons (by simp [hcolon, Token.Kind.binding]) _
      · exact .expect hcolon (by decide) (.bind (he _ _ _ (by omega) hn hrest) h)
    have hfollow : Stops 5 ((question :: (ys ++ (colon :: (ns ++ us)))) ++ rest) :=
      .cons (by simp [hquestion, Token.Kind.binding]) _
    have hall := ih (n + 1) _ rest v hfollow htail
    rw [show n + 1 + passes = n + (passes + 1) by omega] at hall
    simpa using hall

theorem conditional_accepts (hu : Reading loop size 9 unary Unary)
    (hc : ∀ s < size, Reading loop s 4 conditional Conditional) (hn : size < n) :
    Reading loop size 4 (Grammar.conditional n unary conditional) Conditional := by
  intro ts e rest hsize h hrest
  obtain @⟨line, _, _, h⟩ := h
  obtain ⟨passes, hpasses, hchain⟩ := choiceChain_accepts (equality_accepts hu hn) hc h hsize
  obtain ⟨m, rfl⟩ := Nat.exists_eq_add_of_lt (Nat.lt_of_le_of_lt (Nat.le_trans hpasses hsize) hn)
  have hlast : Accepts loop (conditionalTail (equality (passes + m + 1) unary) conditional line (m + 1) e)
      [] rest e := .skip (hrest.other (by decide)) .pure
  have hall := hchain (m + 1) [] rest e (hrest.stops (by decide)) hlast
  rwa [show m + 1 + passes = passes + m + 1 by omega, List.append_nil] at hall

theorem disjunction_accepts (hc : Reading loop size 4 conditional Conditional) (hn : size < n) :
    Reading loop size 2 (disjunction n conditional) Disjunction := by
  have hand : Reading loop size 3 (leftAssoc n [.kwAnd] .logical conditional) Conjunction :=
    fun ts e rest hsize ⟨h⟩ hrest => leftAssoc_accepts (fun kind => by cases kind <;> decide)
      (by decide) hc h hsize (by omega) hrest
  exact fun ts e rest hsize ⟨h⟩ hrest => leftAssoc_accepts (fun kind => by cases kind <;> decide)
    (by decide) hand h hsize (by omega) hrest

theorem assignment_accepts (hc : Reading loop size 4 conditional Conditional)
    (he : ∀ s < size, Reading loop s 1 expression Expression) (hn : size < n) :
    Reading loop size 1 (assignment n conditional expression) Expression := by
  have hd := disjunction_accepts hc hn
  intro ts e rest hsize h hrest
  cases h with
  | value h =>
    exact .bindPure (hd _ _ _ hsize h (hrest.stops (by decide))) (.skip (hrest.other (by decide)) .pure)
  | @assign name equal vs v hname hequal hv =>
    simp only [List.length_cons] at hsize
    change Accepts loop _ ([name] ++ equal :: vs) rest _
    refine .bind (hd _ _ _ (by simp; omega) (.of_call (.primary (.ref hname))) ?_) ?_
    · exact .cons (by simp [hequal, Token.Kind.binding]) _
    · refine .take (by simp [hequal]) (by simp [hequal]) ?_
      exact .bindPure (he vs.length (by omega) _ _ _ (Nat.le_refl _) hv hrest) .pure
  | @set os vs dot name equal o v ho hdot hname hequal hv =>
    simp only [List.length_append, List.length_cons] at hsize
    have hcall := Disjunction.of_call (.property ho hdot hname)
    have haccepts : Accepts loop (assignment n conditional expression)
        ((os ++ [dot, name]) ++ equal :: vs) rest (.setProperty o name v) := by
      refine .bind (hd _ _ _ (by simp; omega) hcall (.cons (by simp [hequal, Token.Kind.binding]) _)) ?_
      refine .take (by simp [hequal]) (by simp [hequal]) ?_
      exact .bindPure (he vs.length (by omega) _ _ _ (Nat.le_refl _) hv hrest) .pure
    simpa using haccepts

theorem commaList_accepts {α : Type} {item : Reader α} {I : List Token → α → Prop} {limit : Nat}
    {what : String} (hi : Reading loop size 1 item I) {ts rest : List Token} {as : List α}
    (h : Separated I ts as) (hsize : ts.length ≤ size) {count : Nat} (hcount : count + as.length ≤ limit)
    (hn : as.length ≤ n) (hrest : Stops 1 rest) (hcomma : Next (· ≠ .comma) rest) :
    Accepts loop (commaList item limit what n count) ts rest as := by
  induction h generalizing n count with
  | @one ts a ha =>
    obtain ⟨m, rfl⟩ := Nat.exists_eq_succ_of_ne_zero (Nat.pos_iff_ne_zero.1 hn)
    rw [commaList, if_neg (by simp at hcount; omega)]
    refine .bindPure (hi _ _ _ hsize ha hrest) (.skip ?_ .pure)
    exact hcomma.mono fun kind hkind => decide_eq_false hkind
  | @more ts us comma a as ha hcomma has ih =>
    simp only [List.length_append, List.length_cons] at hsize hcount hn
    obtain ⟨m, rfl⟩ := Nat.exists_eq_succ_of_ne_zero (n := n) (by omega)
    rw [commaList, if_neg (by omega)]
    refine .bind (hi _ _ _ (by omega) ha (.cons (by simp [hcomma, Token.Kind.binding]) _)) ?_
    refine .take (by simp [hcomma]) (by simp [hcomma]) ?_
    exact .bindPure (ih (by omega) (by omega) (by omega)) .pure

theorem listUntil_accepts {α : Type} {item : Reader α} {I : List Token → α → Prop} {limit : Nat}
    {what : String} {closing : Token.Kind} (hi : Reading loop size 1 item I)
    (hfirst : ∀ ts a, I ts a → Next (· ≠ closing) ts) {ts rest : List Token} {as : List α}
    (h : Listed I limit ts as) (hsize : ts.length ≤ size) (hn : size < n)
    (hrest : Next (· = closing) rest)
    (hclosing : closing.binding = 0 ∧ closing ≠ .comma ∧ closing ≠ .eof) :
    Accepts loop (listUntil n closing item limit what) ts rest as := by
  have hbefore : Stops 1 rest := hrest.mono fun kind hkind => by simp [hkind, hclosing.1]
  have hcomma : Next (· ≠ .comma) rest := hrest.mono fun kind hkind => by simp [hkind, hclosing.2.1]
  cases h with
  | none => exact .sees hrest hclosing.2.2 .pure
  | some has hlimit =>
    have hlength := has.length_le
    exact .seesOther ((has.next hfirst).append rest)
      (commaList_accepts hi has hsize (by omega) (by omega) hbefore hcomma)

theorem callChain_accepts (he : ∀ s < size, Reading loop s 1 expression Expression)
    {primary : Reader Expr} (hp : ∀ ts e rest, ts.length ≤ size → Primary ts e → Accepts loop primary ts rest e)
    {ts : List Token} {e : Expr} : Call ts e → ts.length ≤ size →
    ∃ passes ≤ ts.length, ∀ m us rest v, size < m → Accepts loop (callTail expression m e) us rest v →
      Accepts loop (primary >>= callTail expression (m + passes)) (ts ++ us) rest v
  | .primary h, hsize => ⟨0, Nat.zero_le _, fun _ _ _ _ _ htail => .bind (hp _ _ _ hsize h) htail⟩
  | @Call.call fs as left right f arguments hf hleft has hright, hsize => by
    simp only [List.length_append, List.length_cons] at hsize
    obtain ⟨passes, hpasses, hchain⟩ := callChain_accepts he hp hf (by omega)
    refine ⟨passes + 1, by simp; omega, fun m us rest v hm htail => ?_⟩
    have hcall : Accepts loop (callTail expression (m + 1) f) (left :: (as ++ right :: us)) rest v := by
      refine .take (by simp [hleft]) (by simp [hleft]) ?_
      dsimp only
      rw [if_pos hleft]
      refine .bind (listUntil_accepts (he as.length (by omega)) (fun _ _ h => h.starts.ne (by decide)) has
        (Nat.le_refl _) (by omega) (.cons hright _) (by decide)) ?_
      exact .expect hright (by decide) htail
    have hall := hchain (m + 1) _ rest v (by omega) hcall
    rw [show m + 1 + passes = m + (passes + 1) by omega] at hall
    simpa using hall
  | @Call.property os dot name o ho hdot hname, hsize => by
    simp only [List.length_append, List.length_cons] at hsize
    obtain ⟨passes, hpasses, hchain⟩ := callChain_accepts he hp ho (by omega)
    refine ⟨passes + 1, by simp; omega, fun m us rest v hm htail => ?_⟩
    have hproperty : Accepts loop (callTail expression (m + 1) o) (dot :: name :: us) rest v := by
      refine .take (by simp [hdot]) (by simp [hdot]) ?_
      dsimp only
      rw [if_neg (by simp [hdot])]
      exact .expect hname (by decide) htail
    have hall := hchain (m + 1) _ rest v (by omega) hproperty
    rw [show m + 1 + passes = m + (passes + 1) by omega] at hall
    simpa using hall

def ReadingBlock (loop : Bool) (size : Nat) (block : Reader (List Stmt)) : Prop :=
  ∀ bs closing ss rest, bs.length < size → Declarations loop bs ss → closing.kind = .rightBrace →
    Accepts loop block (bs ++ [closing]) rest ss

theorem lambda_accepts {what : String} (hb : ∀ s < size, ReadingBlock false s block) (hn : size < n)
    {ts rest : List Token} {f : Lambda} (h : Function ts f) (hsize : ts.length ≤ size) :
    Accepts loop (lambda n block what) ts rest f := by
  obtain @⟨left, right, opening, closing, ps, bs, params, body, hleft, hps, hright, hopening, hbody,
    hclosing⟩ := h
  simp only [List.length_append, List.length_cons, List.length_nil] at hsize
  have parameter : Reading false ps.length 1 (expect .identifier "parameter name") Parameter :=
    fun ts t rest _ ⟨ht⟩ _ => .token ht (by decide)
  have hfirst : ∀ ts t, Parameter ts t → Next (· ≠ .rightParen) ts :=
    fun ts t ⟨ht⟩ => .cons (by simp [ht]) _
  have haccepts : Accepts loop (lambda n block what)
      (left :: (ps ++ (right :: opening :: (bs ++ [closing])))) rest (.mk params body) := by
    refine .inFunction (.expect hleft (by decide) ?_)
    refine .bind (listUntil_accepts parameter hfirst hps (Nat.le_refl _) (by omega) (.cons hright _)
      (by decide)) ?_
    refine .expect hright (by decide) (.expect hopening (by decide) ?_)
    exact .bindPure (hb (bs.length + 1) (by omega) _ _ _ _ (by omega) hbody hclosing) .pure
  simpa using haccepts

theorem primary_accepts (he : ∀ s < size, Reading loop s 1 expression Expression)
    (hb : ∀ s < size, ReadingBlock false s block) (hn : size < n) {ts rest : List Token} {e : Expr}
    (hsize : ts.length ≤ size) (h : Primary ts e) :
    Accepts loop (primary n expression block) ts rest e := by
  cases h with
  | no ht | yes ht | nil ht | self ht | ref ht =>
    refine .take (by simp [ht]) (by simp [ht, startsOperand]) ?_
    dsimp only
    rw [ht]
    exact .pure
  | literal ht =>
    obtain ht | ht : _ ∨ _ := by simpa using ht
    all_goals
      refine .take (by simp [ht]) (by simp [ht, startsOperand]) ?_
      dsimp only
      rw [ht]
      exact .pure
  | function hword hf =>
    refine .take (by simp [hword]) (by simp [hword, startsOperand]) ?_
    dsimp only
    rw [hword]
    exact .bindPure (lambda_accepts hb hn hf (by simp at hsize; omega)) .pure
  | @list left right ts es hleft hes hright =>
    simp only [List.length_append, List.length_cons, List.length_nil] at hsize
    refine .take (by simp [hleft]) (by simp [hleft, startsOperand]) ?_
    dsimp only
    rw [hleft]
    refine .bind (listUntil_accepts (he ts.length (by omega)) (fun _ _ h => h.starts.ne (by decide)) hes
      (Nat.le_refl _) (by omega) (.cons hright _) (by decide)) ?_
    exact .expect hright (by decide) .pure
  | @group left right ts e hleft hg hright =>
    simp only [List.length_append, List.length_cons, List.length_nil] at hsize
    refine .take (by simp [hleft]) (by simp [hleft, startsOperand]) ?_
    dsimp only
    rw [hleft]
    refine .bind (he ts.length (by omega) _ _ _ (Nat.le_refl _) hg
      (.cons (by simp [hright, Token.Kind.binding]) _)) ?_
    exact .expect hright (by decide) .pure

theorem unary_accepts (hu : ∀ s < size, Reading loop s 9 unary Unary)
    (he : ∀ s < size, Reading loop s 1 expression Expression)
    (hb : ∀ s < size, ReadingBlock false s block) (hn : 2 * size < n) :
    Reading loop size 9 (Grammar.unary n unary expression block) Unary := by
  intro ts e rest hsize h hrest
  cases h with
  | @operator op ts e hop h =>
    simp only [List.length_cons] at hsize
    refine .take (fun h => by simp [h] at hop) (by simpa using hop) ?_
    exact .bindPure (hu ts.length (by omega) _ _ _ (Nat.le_refl _) h hrest) .pure
  | operand h =>
    refine .skip ((h.starts.next.append rest).mono fun kind hkind => ?_) ?_
    · cases kind <;> simp_all [startsOperand]
    · have hn' : size < n := by omega
      obtain ⟨passes, hpasses, hchain⟩ := callChain_accepts he
        (fun _ _ _ hs h => primary_accepts he hb hn' hs h) h hsize
      have hpasses' : passes < n := by omega
      obtain ⟨m, rfl⟩ := Nat.exists_eq_add_of_lt hpasses'
      have hlast : Accepts loop (callTail expression (m + 1) e) [] rest e :=
        .skip (hrest.mono fun kind hkind => by cases kind <;> simp_all [Token.Kind.binding]) .pure
      have hall := hchain (m + 1) [] rest e (by omega) hlast
      rwa [show m + 1 + passes = passes + m + 1 by omega, List.append_nil] at hall

end expressions

section statements

variable {loop : Bool} {size n : Nat} {expression : Reader Expr} {statement : Reader Stmt}
  {block : Reader (List Stmt)} {ts rest : List Token} {t : Stmt}

def ReadingStatement (loop : Bool) (size : Nat) (statement : Reader Stmt) : Prop :=
  ∀ dangling ts t rest, ts.length ≤ size → Statement loop dangling ts t →
    (dangling = true → Next (· ≠ .kwElse) rest) → Accepts loop statement ts rest t

theorem Reading.before {α : Type} {p : Reader α} {I : List Token → α → Prop} {s : Nat}
    (h : Reading loop s 1 p I) {ts us : List Token} {a : α} (hs : ts.length ≤ s) (ha : I ts a)
    {t : Token} {kind : Token.Kind} (ht : t.kind = kind) (hkind : kind.binding = 0) :
    Accepts loop p ts (t :: us) a :=
  h ts a _ hs ha (.cons (by simp [ht, hkind]) us)

theorem expressionStmt_accepts {es : List Token} {e : Expr} {semicolon : Token}
    (he : Reading loop es.length 1 expression Expression) (h : Expression es e)
    (hsemicolon : semicolon.kind = .semicolon) :
    Accepts loop (expressionStmt expression) (es ++ [semicolon]) rest (.expression e) :=
  .bind (he.before (Nat.le_refl _) h hsemicolon (by decide)) (.expect hsemicolon (by decide) .pure)

theorem varDecl_accepts (he : ∀ s < size, Reading loop s 1 expression Expression) (h : Variable ts t)
    (hsize : ts.length ≤ size) :
    ∃ word us, ts = word :: us ∧ word.kind = .kwVar ∧
      ∀ rest, Accepts loop (varDecl expression) us rest t := by
  cases h with
  | plain hword hname hsemicolon =>
    refine ⟨_, _, rfl, hword, fun _ => .expect hname (by decide) (.skip (.cons (by simp [hsemicolon]) _) ?_)⟩
    exact .bindNone .pure (.expect hsemicolon (by decide) .pure)
  | @initial word name equal semicolon es e hword hname hequal hes hsemicolon =>
    simp only [List.length_append, List.length_cons, List.length_nil] at hsize
    refine ⟨word, name :: equal :: (es ++ [semicolon]), by simp, hword, fun _ => ?_⟩
    refine .expect hname (by decide) (.take (by simp [hequal]) (by simp [hequal]) ?_)
    refine .bind (.map some ((he es.length (by omega)).before (Nat.le_refl _) hes hsemicolon
      (by decide))) ?_
    exact .expect hsemicolon (by decide) .pure

theorem forInit_accepts (he : ∀ s < size, Reading loop s 1 expression Expression) {o : Option Stmt}
    (h : Clause ts o) (hsize : ts.length ≤ size) : Accepts loop (forInit expression) ts rest o := by
  cases h with
  | none hsemicolon =>
    refine .take (by simp [hsemicolon]) (by simp [hsemicolon]) ?_
    dsimp only
    rw [if_pos hsemicolon]
    exact .pure
  | varDecl h =>
    obtain ⟨word, us, rfl, hword, haccepts⟩ := varDecl_accepts he h hsize
    refine .take (by simp [hword]) (by simp [hword]) ?_
    dsimp only
    rw [if_neg (by simp [hword])]
    exact .map some (haccepts rest)
  | @expression es e semicolon hes hsemicolon =>
    simp only [List.length_append, List.length_cons, List.length_nil] at hsize
    refine .skip (((hes.starts.next.append [semicolon]).append rest).mono fun kind hkind => ?_) ?_
    · cases kind <;> simp_all [Token.Kind.startsExpression, startsOperand]
    · exact .map some (expressionStmt_accepts (he es.length (by omega)) hes hsemicolon)

theorem optional_accepts {ts us : List Token} {o : Option Expr} {closing : Token} {kind : Token.Kind}
    (he : Reading loop ts.length 1 expression Expression) (h : Optional Expression ts o)
    (hclosing : closing.kind = kind) (hkind : kind.binding = 0 ∧ kind.startsExpression = false) :
    (ts = [] ∧ o = none ∧ Next (· = kind) (closing :: us)) ∨
      (Accepts loop (some <$> expression) ts (closing :: us) o ∧ Next (· ≠ kind) ts) := by
  cases h with
  | none => exact .inl ⟨rfl, rfl, .cons hclosing us⟩
  | some h => exact .inr ⟨.map some (he.before (Nat.le_refl _) h hclosing hkind.1), h.starts.ne hkind.2⟩

theorem forStmt_accepts (he : ∀ s < size, Reading loop s 1 expression Expression)
    (hs : ∀ s < size, ReadingStatement true s statement) {left semicolon right : Token}
    {is cs ss bs : List Token} {initial : Option Stmt} {condition step : Option Expr} {body : Stmt}
    {dangling : Bool} (hleft : left.kind = .leftParen) (hinitial : Clause is initial)
    (hcondition : Optional Expression cs condition) (hsemicolon : semicolon.kind = .semicolon)
    (hstep : Optional Expression ss step) (hright : right.kind = .rightParen)
    (hbody : Statement true dangling bs body)
    (hsize : (left :: (is ++ (cs ++ semicolon :: (ss ++ right :: bs)))).length ≤ size)
    (hrest : dangling = true → Next (· ≠ .kwElse) rest) :
    Accepts loop (forStmt expression statement)
      (left :: (is ++ (cs ++ semicolon :: (ss ++ right :: bs)))) rest (forLoop initial condition step body) := by
  simp only [List.length_append, List.length_cons] at hsize
  refine .expect hleft (by decide) (.bind (forInit_accepts he hinitial (by omega)) ?_)
  refine .leftOut (v := condition.getD (.literal (.bool true))) (by decide) ?_ ?_
  · cases hcondition with
    | none => exact .inl ⟨rfl, rfl, .cons hsemicolon _⟩
    | some h =>
      exact .inr ⟨(he cs.length (by omega)).before (Nat.le_refl _) h hsemicolon (by decide),
        h.starts.ne (by decide)⟩
  refine .expect hsemicolon (by decide) (.leftOut (by decide)
    (optional_accepts (he ss.length (by omega)) hstep hright (by decide)) ?_)
  refine .expect hright (by decide) ?_
  refine .bindPure (.inLoop (hs bs.length (by omega) _ _ _ _ (Nat.le_refl _) hbody hrest)) ?_
  cases initial with
  | none => exact .pure
  | some s => exact .pure

theorem jump_accepts {word semicolon : Token} {node : Token → Stmt} (hsemicolon : semicolon.kind = .semicolon) :
    Accepts true (jump word node) [semicolon] rest (node word) :=
  .asking (.expect hsemicolon (by decide) .pure)

theorem printStmt_accepts {es : List Token} {e : Expr} {semicolon : Token}
    (he : Reading loop es.length 1 expression Expression) (h : Expression es e)
    (hsemicolon : semicolon.kind = .semicolon) :
    Accepts loop (printStmt expression) (es ++ [semicolon]) rest (.print e) :=
  .bind (he.before (Nat.le_refl _) h hsemicolon (by decide)) (.expect hsemicolon (by decide) .pure)

theorem returnStmt_accepts {es : List Token} {value : Option Expr} {word semicolon : Token}
    (he : Reading loop es.length 1 expression Expression) (h : Optional Expression es value)
    (hsemicolon : semicolon.kind = .semicolon) :
    Accepts loop (returnStmt word expression) (es ++ [semicolon]) rest (.ret word value) :=
  .leftOut (by decide) (optional_accepts he h hsemicolon (by decide)) (.expect hsemicolon (by decide) .pure)

theorem whileStmt_accepts (he : ∀ s < size, Reading loop s 1 expression Expression)
    (hs : ∀ s < size, ReadingStatement true s statement) {left right : Token} {cs bs : List Token}
    {c : Expr} {b : Stmt} {dangling : Bool} (hleft : left.kind = .leftParen) (hc : Expression cs c)
    (hright : right.kind = .rightParen) (hb : Statement true dangling bs b)
    (hsize : (left :: (cs ++ right :: bs)).length ≤ size)
    (hrest : dangling = true → Next (· ≠ .kwElse) rest) :
    Accepts loop (whileStmt expression statement) (left :: (cs ++ right :: bs)) rest
      (.whileLoop c b none) := by
  simp only [List.length_append, List.length_cons] at hsize
  refine .expect hleft (by decide)
    (.bind ((he cs.length (by omega)).before (Nat.le_refl _) hc hright (by decide)) ?_)
  refine .expect hright (by decide) ?_
  exact .bindPure (.inLoop (hs bs.length (by omega) _ _ _ _ (Nat.le_refl _) hb hrest)) .pure

theorem ifStmt_accepts (he : ∀ s < size, Reading loop s 1 expression Expression)
    (hs : ∀ s < size, ReadingStatement loop s statement) {left right : Token} {cs ys us : List Token}
    {c : Expr} {y : Stmt} {no : Option Stmt} {dangling : Bool} (hleft : left.kind = .leftParen)
    (hc : Expression cs c) (hright : right.kind = .rightParen) (hy : Statement loop dangling ys y)
    (hsize : (left :: (cs ++ right :: ys)).length ≤ size)
    (hrest : dangling = true → Next (· ≠ .kwElse) (us ++ rest))
    (hno : us = [] ∧ no = none ∧ Next (· ≠ .kwElse) rest ∨ ∃ other ns n, us = other :: ns ∧
      other.kind = .kwElse ∧ no = some n ∧ Accepts loop statement ns rest n) :
    Accepts loop (ifStmt expression statement) (left :: (cs ++ right :: (ys ++ us))) rest
      (.ifThen c y no) := by
  simp only [List.length_append, List.length_cons] at hsize
  refine .expect hleft (by decide)
    (.bind ((he cs.length (by omega)).before (Nat.le_refl _) hc hright (by decide)) ?_)
  refine .expect hright (by decide) ?_
  refine .bind (hs ys.length (by omega) _ _ _ _ (Nat.le_refl _) hy hrest) ?_
  obtain ⟨rfl, rfl, hnext⟩ | ⟨other, ns, n, rfl, hother, rfl, hn⟩ := hno
  · exact .skip (hnext.mono fun _ hkind => decide_eq_false hkind) (.bindNone .pure .pure)
  · exact .take (by simp [hother]) (by simp [hother]) (.bindPure (.map some hn) .pure)

theorem statement_accepts (he : ∀ s ≤ size, Reading loop s 1 expression Expression)
    (hs : ∀ loop, ∀ s < size, ReadingStatement loop s statement)
    (hb : ∀ s < size, ReadingBlock loop s block) :
    ReadingStatement loop size (Grammar.statement expression statement block) := by
  have he' : ∀ s < size, Reading loop s 1 expression Expression := fun s hs => he s (by omega)
  intro dangling ts t rest hsize h hrest
  cases h with
  | breakLoop hword hsemicolon | continueLoop hword hsemicolon =>
    refine .take (by simp [hword]) (by simp [hword, startsPlainStmt]) ?_
    dsimp only
    rw [hword]
    exact jump_accepts hsemicolon
  | forLoop hword hleft hinitial hcondition hsemicolon hstep hright hbody =>
    simp only [List.cons_append, List.append_assoc] at hsize ⊢
    refine .take (by simp [hword]) (by simp [hword, startsPlainStmt]) ?_
    dsimp only
    rw [hword]
    exact forStmt_accepts he' (hs true) hleft hinitial hcondition hsemicolon hstep hright hbody
      (Nat.le_of_succ_le hsize) hrest
  | @ifThen _ d _ _ _ _ ys _ _ hword hleft hc hright hy =>
    simp only [List.cons_append] at hsize ⊢
    refine .take (by simp [hword]) (by simp [hword, startsPlainStmt]) ?_
    dsimp only
    rw [hword, ← List.append_nil ys]
    exact ifStmt_accepts he' (hs loop) hleft hc hright hy (Nat.le_of_succ_le hsize) (fun _ => hrest rfl)
      (.inl ⟨rfl, rfl, hrest rfl⟩)
  | @ifElse _ _ word left right other cs ys ns c y n hword hleft hc hright hy hother hn =>
    simp only [List.cons_append, List.append_assoc, List.length_cons, List.length_append] at hsize ⊢
    refine .take (by simp [hword]) (by simp [hword, startsPlainStmt]) ?_
    dsimp only
    rw [hword]
    refine ifStmt_accepts he' (hs loop) hleft hc hright hy (by simp; omega) (by simp)
      (.inr ⟨other, ns, n, rfl, hother, rfl, ?_⟩)
    exact hs loop ns.length (by omega) _ _ _ _ (Nat.le_refl _) hn hrest
  | @print _ word semicolon es e hword hes hsemicolon =>
    simp only [List.cons_append, List.length_cons, List.length_append] at hsize ⊢
    refine .take (by simp [hword]) (by simp [hword, startsPlainStmt]) ?_
    dsimp only
    rw [hword]
    exact printStmt_accepts (he es.length (by omega)) hes hsemicolon
  | @ret _ word semicolon es value hword hvalue hsemicolon =>
    simp only [List.cons_append, List.length_cons, List.length_append] at hsize ⊢
    refine .take (by simp [hword]) (by simp [hword, startsPlainStmt]) ?_
    dsimp only
    rw [hword]
    exact returnStmt_accepts (he es.length (by omega)) hvalue hsemicolon
  | whileLoop hword hleft hc hright hb =>
    simp only [List.cons_append] at hsize ⊢
    refine .take (by simp [hword]) (by simp [hword, startsPlainStmt]) ?_
    dsimp only
    rw [hword]
    exact whileStmt_accepts he' (hs true) hleft hc hright hb (Nat.le_of_succ_le hsize) hrest
  | @block _ opening closing bs body hopening hbody hclosing =>
    simp only [List.cons_append, List.length_cons, List.length_append] at hsize ⊢
    refine .take (by simp [hopening]) (by simp [hopening, startsPlainStmt]) ?_
    dsimp only
    rw [hopening]
    exact .bindPure (hb (bs.length + 1) (by simp at hsize; omega) _ _ _ _ (by omega) hbody hclosing) .pure
  | @expression _ es semicolon e hes hsemicolon =>
    simp only [List.length_append, List.length_cons] at hsize
    refine .skip (((hes.starts.next.append [semicolon]).append rest).mono fun kind hkind => ?_) ?_
    · cases kind <;> simp_all [Token.Kind.startsExpression, startsOperand, startsPlainStmt]
    · exact expressionStmt_accepts (he es.length (by omega)) hes hsemicolon

theorem function_accepts {what : String} (hb : ∀ s < size, ReadingBlock false s block) (hn : size < n)
    {name : Token} {f : Lambda} (hname : name.kind = .identifier) (h : Function ts f)
    (hsize : ts.length ≤ size) :
    Accepts loop (function n block what) (name :: ts) rest (name, f) :=
  .expect hname (by decide) (.bindPure (lambda_accepts hb hn h hsize) .pure)

theorem methods_accepts (hb : ∀ s < size, ReadingBlock false s block) (hn : size < n) {ts : List Token}
    {ms : List Method} {m : Nat} : Methods ts ms → ts.length ≤ size → ts.length < m → Next (· = .rightBrace) rest →
    Accepts loop (methods n block m) ts rest ms
  | .none, _, hm, hrest => by
    obtain ⟨m, rfl⟩ := Nat.exists_eq_succ_of_ne_zero (Nat.ne_zero_of_lt hm)
    exact .closing hrest .pure
  | @Methods.more name ts us f ms hname hf hms, hsize, hm, hrest => by
    simp only [List.length_append, List.length_cons] at hsize hm
    obtain ⟨m, rfl⟩ := Nat.exists_eq_succ_of_ne_zero (Nat.ne_zero_of_lt hm)
    refine .beforeClosing (.cons (by simp [hname]) _) ?_
    refine .bind (function_accepts hb hn hname hf (by omega)) ?_
    exact .bindPure (methods_accepts hb hn hms (by omega) (by omega) hrest) .pure

theorem classDecl_accepts (hb : ∀ s < size, ReadingBlock false s block) (hn : size < n)
    {name opening closing : Token} {ms : List Method} (hname : name.kind = .identifier)
    (hopening : opening.kind = .leftBrace) (hms : Methods ts ms) (hclosing : closing.kind = .rightBrace)
    (hsize : ts.length ≤ size) :
    Accepts loop (classDecl n block) (name :: opening :: (ts ++ [closing])) rest (.classDecl name ms) := by
  refine .expect hname (by decide) (.expect hopening (by decide) ?_)
  refine .bind (methods_accepts hb hn hms hsize (by omega) (.cons hclosing _)) ?_
  exact .expect hclosing (by decide) .pure

def ReadingDeclaration (loop : Bool) (size : Nat) (declaration : Reader (Option Stmt)) : Prop :=
  ∀ ts t rest, ts.length ≤ size → Declaration loop ts t → Next (· ≠ .kwElse) rest →
    Accepts loop declaration ts rest (some t)

theorem declaration_accepts (he : ∀ s < size, Reading loop s 1 expression Expression)
    (hs : ReadingStatement loop size statement) (hb : ∀ s < size, ReadingBlock false s block)
    (hn : size < n) :
    ReadingDeclaration loop size (Grammar.declaration n expression statement block) := by
  intro ts t rest hsize h hrest
  refine .recovering ?_
  cases h with
  | classDecl hword hname hopening hms hclosing =>
    simp only [List.cons_append, List.length_cons, List.length_append] at hsize ⊢
    refine .take (by simp [hword]) (by simp [hword]) ?_
    exact classDecl_accepts hb hn hname hopening hms hclosing (by omega)
  | funDecl hword hname hf =>
    simp only [List.length_cons] at hsize
    refine .skip (.cons (by simp [hword]) _) (.named hword hname ?_)
    refine .take (by simp [hword]) (by simp [hword]) ?_
    exact .bindPure (function_accepts hb hn hname hf (by omega)) .pure
  | varDecl h =>
    obtain ⟨word, us, rfl, hword, haccepts⟩ := varDecl_accepts he h hsize
    refine .skip (.cons (by simp [hword]) _) (.unnamed (by simp [hword]) ?_)
    exact .take (by simp [hword]) (by simp [hword]) (haccepts rest)
  | statement h =>
    have haccepts := hs _ _ _ _ hsize h fun _ => hrest
    obtain ⟨t, us, rfl, ht, hfun⟩ := h.starts
    refine .skip (.cons ?_ _) (.unnamed hfun (.skip (.cons ?_ _) haccepts))
    · exact decide_eq_false fun h => by rw [h] at ht; exact absurd ht (by decide)
    · exact decide_eq_false fun h => by rw [h] at ht; exact absurd ht (by decide)

theorem declarations_accepts {declaration : Reader (Option Stmt)}
    (hd : ReadingDeclaration loop size declaration) {closing : Token.Kind}
    (hclosing : closing = .eof ∨ closing = .rightBrace) {ts : List Token} {ss : List Stmt} {m : Nat} :
    Declarations loop ts ss → ts.length ≤ size → ts.length < m → Next (· = closing) rest →
    Accepts loop (declarations closing declaration m) ts rest ss
  | .none, _, hm, hrest => by
    obtain ⟨m, rfl⟩ := Nat.exists_eq_succ_of_ne_zero (Nat.ne_zero_of_lt hm)
    exact .closing hrest .pure
  | @Declarations.more _ ts us t others ht hothers, hsize, hm, hrest => by
    have hfirst := ht.next
    have hlength : 0 < ts.length := by
      obtain ⟨t, ws, rfl, -⟩ := hfirst
      simp
    simp only [List.length_append] at hsize hm
    obtain ⟨m, rfl⟩ := Nat.exists_eq_succ_of_ne_zero (Nat.ne_zero_of_lt hm)
    have hfollow : Next (· ≠ .kwElse) (us ++ rest) := by
      cases hothers with
      | none => exact hrest.mono fun kind hkind => by obtain rfl | rfl := hclosing <;> simp [hkind]
      | more hu _ => exact ((hu.next.append _).append rest).mono fun _ hkind => hkind.2.2
    refine .beforeClosing (((hfirst.append us).append rest).mono fun kind hkind => ?_) ?_
    · obtain rfl | rfl := hclosing
      · exact ⟨hkind.1, hkind.1⟩
      · exact ⟨hkind.1, hkind.2.1⟩
    refine .bind (hd _ _ _ (by omega) ht hfollow) ?_
    exact .bindPure (declarations_accepts hd hclosing hothers (by omega) (by omega) hrest) .pure

theorem block_accepts {declaration : Reader (Option Stmt)}
    (hd : ∀ s < size, ReadingDeclaration loop s declaration) (hn : size < n) :
    ReadingBlock loop size (Grammar.block n declaration) := by
  intro bs closing ss rest hsize h hclosing
  refine .bind (declarations_accepts (hd bs.length hsize) (.inr rfl) h (Nat.le_refl _) (by omega)
    (.cons hclosing _)) ?_
  exact .expect hclosing (by decide) .pure

end statements

theorem readers_accept (n : Nat) : ∀ (loop : Bool) (size : Nat),
    (8 * size + 9 ≤ n → Reading loop size 9 (Reader.unary n) Unary) ∧
    (8 * size + 10 ≤ n → Reading loop size 4 (Reader.conditional n) Conditional) ∧
    (8 * size + 11 ≤ n → Reading loop size 1 (Reader.expression n) Expression) ∧
    (8 * size + 12 ≤ n → ReadingStatement loop size (Reader.statement n)) ∧
    (8 * size + 13 ≤ n → ReadingDeclaration loop size (Reader.declaration n)) ∧
    (8 * size + 6 ≤ n → ReadingBlock loop size (Reader.block n)) := by
  induction n with
  | zero => intro loop size; refine ⟨?_, ?_, ?_, ?_, ?_, ?_⟩ <;> omega
  | succ n ih =>
    intro loop size
    have hu := fun loop size => (ih loop size).1
    have hc := fun loop size => (ih loop size).2.1
    have he := fun loop size => (ih loop size).2.2.1
    have hs := fun loop size => (ih loop size).2.2.2.1
    have hd := fun loop size => (ih loop size).2.2.2.2.1
    have hb := fun loop size => (ih loop size).2.2.2.2.2
    refine ⟨fun h => ?_, fun h => ?_, fun h => ?_, fun h => ?_, fun h => ?_, fun h => ?_⟩
    · exact unary_accepts (fun s _ => hu loop s (by omega)) (fun s _ => he loop s (by omega))
        (fun s _ => hb false s (by omega)) (by omega)
    · exact conditional_accepts (hu loop size (by omega)) (fun s _ => hc loop s (by omega)) (by omega)
    · exact assignment_accepts (hc loop size (by omega)) (fun s _ => he loop s (by omega)) (by omega)
    · exact statement_accepts (fun s _ => he loop s (by omega)) (fun l s _ => hs l s (by omega))
        (fun s _ => hb loop s (by omega))
    · exact declaration_accepts (fun s _ => he loop s (by omega)) (hs loop size (by omega))
        (fun s _ => hb false s (by omega)) (by omega)
    · exact block_accepts (fun s _ => hd loop s (by omega)) (by omega)

end Grammar

open Reader Grammar Phrase

/-- What derives from the grammar is read without a report, with the tree of the derivation. -/
theorem parse_complete {body : List Token} {last : Token} {ss : List Stmt} (hlast : last.kind = .eof)
    (h : Program body ss) : parse (body ++ [last]) = (some ss, []) := by
  let n := depthPerToken * ((body ++ [last]).length + 1)
  have hn : 8 * body.length + 16 = n := by
    simp only [n, depthPerToken, List.length_append, List.length_cons, List.length_nil]
    omega
  have hd := (readers_accept n false body.length).2.2.2.2.1 (by omega)
  have haccepts : Accepts false (Reader.program n) body [last] ss :=
    declarations_accepts hd (.inl rfl) h (Nat.le_refl _) (by omega) (.cons hlast [])
  have hrun : Reader.program n (Cursor.ofTokens (body ++ [last])) =
      .ok ss ⟨body.reverse ++ [], [last], [0], []⟩ := haccepts [] [0] [] (by simp) rfl
  simp only [parse, n] at hrun ⊢
  rw [hrun]
  rfl

end LoxLang
