import LoxLang.Proofs.Reading.Phrase
import LoxLang.Proofs.Reading.Reads

namespace LoxLang.Grammar

open Reader Phrase

/-- The reader takes a phrase that derives its value. -/
abbrev Takes {α : Type} (loop : Bool) (r : Nat) (p : Reader α) (O : List Token → α → Prop) : Prop :=
  Reads loop r true p fun ts _ a => O ts a

def TakesBlock (loop : Bool) (r : Nat) (block : Reader (List Stmt)) : Prop :=
  Takes loop r block fun ts ss =>
    ∃ bs closing, ts = bs ++ [closing] ∧ closing.kind = .rightBrace ∧ Declarations loop bs ss

def TakesStatement (loop : Bool) (r : Nat) (statement : Reader Stmt) : Prop :=
  Reads loop r true statement fun ts rest t => ∃ dangling, Statement loop dangling ts t ∧
    (dangling = true → ∀ u us, rest = u :: us → u.kind ≠ .kwElse)

section expressions

variable {loop : Bool} {r n : Nat} {operand unary conditional expression : Reader Expr}
  {block : Reader (List Stmt)} {O : List Token → Expr → Prop} {ops : List Token.Kind}
  {join : Expr → Token → Expr → Expr}

theorem leftTail_reads (hO : ∀ r' < r, Takes loop r' operand O) (hn : r ≤ n) (left : Expr) :
    Reads loop r false (leftTail ops join operand n left) fun us _ e =>
      ∀ ls, LeftChain O ops join ls left → LeftChain O ops join (ls ++ us) e := by
  induction n generalizing r left with
  | zero =>
    obtain rfl := Nat.le_zero.1 hn
    exact .zero
  | succ n ih =>
    refine .take (fun op r₁ h₁ _ hop => ?_) ?_
    · refine .bind (hO r₁ h₁) fun right r₂ h₂ => ?_
      refine (ih (fun r' h' => hO r' (by omega)) (by omega) _).mono fun us _ e h rs hrs ls hls => ?_
      simpa using h _ (.more hls (by simpa using hop) hrs)
    · exact .pure fun _ _ ls hls => by simpa using hls

theorem leftAssoc_reads (hO : ∀ r' ≤ r, Takes loop r' operand O) (hn : r ≤ n) :
    Takes loop r (leftAssoc n ops join operand) (LeftChain O ops join) := by
  refine .bind (hO r (Nat.le_refl r)) fun first r₁ h₁ => ?_
  exact (leftTail_reads (fun r' h' => hO r' (by omega)) (by omega) first).mono fun us _ e h ts hts => h ts (.first hts)

theorem equality_reads (hu : ∀ r' ≤ r, Takes loop r' unary Unary) (hn : r ≤ n) :
    Takes loop r (equality n unary) Equality := by
  have factor : ∀ r' ≤ r, Takes loop r' (leftAssoc n [.slash, .star] .binary unary) Factor :=
    fun r' h => (leftAssoc_reads (fun s hs => hu s (by omega)) (by omega)).mono fun _ _ _ => .chain
  have term : ∀ r' ≤ r, Takes loop r' (leftAssoc n [.minus, .plus] .binary _) Term :=
    fun r' h => (leftAssoc_reads (fun s hs => factor s (by omega)) (by omega)).mono fun _ _ _ => .chain
  have comparison : ∀ r' ≤ r, Takes loop r'
      (leftAssoc n [.greater, .greaterEqual, .less, .lessEqual] .binary _) Comparison :=
    fun r' h => (leftAssoc_reads (fun s hs => term s (by omega)) (by omega)).mono fun _ _ _ => .chain
  exact (leftAssoc_reads comparison hn).mono fun _ _ _ => .chain

theorem conditionalTail_reads {equality : Reader Expr} {line : Int}
    (he : ∀ r' < r, Takes loop r' equality Equality)
    (hc : ∀ r' < r, Takes loop r' conditional Conditional) (hn : r ≤ n) (selector : Expr) :
    Reads loop r false (conditionalTail equality conditional line n selector) fun us _ e =>
      ∀ ss, ChoiceChain Equality Conditional line ss selector →
        ChoiceChain Equality Conditional line (ss ++ us) e := by
  induction n generalizing r selector with
  | zero =>
    obtain rfl := Nat.le_zero.1 hn
    exact .zero
  | succ n ih =>
    refine .take (fun question r₁ h₁ _ hquestion => ?_) ?_
    · refine .bind (hc r₁ h₁) fun yes r₂ h₂ => ?_
      refine .expect fun colon r₃ h₃ hcolon => ?_
      refine .bind (he r₃ (by omega)) fun no r₄ h₄ => ?_
      refine (ih (fun r' h' => he r' (by omega)) (fun r' h' => hc r' (by omega)) (by omega) _).mono
        fun us _ e h ns hns ys hys ss hss => ?_
      simpa using h _ (.more hss (by simpa using hquestion) hys hcolon hns)
    · exact .pure fun _ _ ss hss => by simpa using hss

theorem conditional_reads (hu : ∀ r' ≤ r, Takes loop r' unary Unary)
    (hc : ∀ r' < r, Takes loop r' conditional Conditional) (hn : r ≤ n) :
    Takes loop r (Grammar.conditional n unary conditional) Conditional := by
  have he : ∀ r' ≤ r, Takes loop r' (equality n unary) Equality :=
    fun r' h => equality_reads (fun s hs => hu s (by omega)) (by omega)
  refine .bindPrevious (he r (Nat.le_refl r)) fun selector last r₁ h₁ => ?_
  exact (conditionalTail_reads (fun r' h' => he r' (by omega)) (fun r' h' => hc r' (by omega))
    (by omega) selector).mono fun us _ e h ts hts => .chain (h _ (.first hts))

theorem disjunction_reads (hc : ∀ r' ≤ r, Takes loop r' conditional Conditional) (hn : r ≤ n) :
    Takes loop r (disjunction n conditional) Disjunction := by
  have hand : ∀ r' ≤ r, Takes loop r' (leftAssoc n [.kwAnd] .logical conditional) Conjunction :=
    fun r' h => (leftAssoc_reads (fun s hs => hc s (by omega)) (by omega)).mono fun _ _ _ => .chain
  exact (leftAssoc_reads hand hn).mono fun _ _ _ => .chain

theorem assignment_reads (hc : ∀ r' ≤ r, Takes loop r' conditional Conditional)
    (he : ∀ r' < r, Takes loop r' expression Expression) (hn : r ≤ n) :
    Takes loop r (assignment n conditional expression) Expression := by
  refine .bind (disjunction_reads hc hn) fun target r₁ h₁ => ?_
  refine .take (fun equal r₂ h₂ _ hequal => ?_) (.pure fun _ _ ts hts => ?_)
  · refine .bind (he r₂ (by omega)) fun value r₃ h₃ => ?_
    have hequal : equal.kind = .equal := by simpa using hequal
    cases target with
    | ref name hops =>
      refine .pure fun _ vs hvs ts hts => ?_
      obtain ⟨rfl, hname⟩ := hts.of_ref
      simpa using .assign hname hequal hvs
    | property object name =>
      refine .pure fun _ vs hvs ts hts => ?_
      obtain ⟨os, dot, rfl, ho, hdot, hname⟩ := hts.of_property
      simpa using .set ho hdot hname hequal hvs
    | _ => exact .report _ _ (.pure fun _ => trivial)
  · simpa using .value hts

theorem commaList_reads {α : Type} {item : Reader α} {I : List Token → α → Prop} {limit : Nat}
    {what : String} (hi : ∀ r' ≤ r, Takes loop r' item I) (hn : r ≤ n) (count : Nat) :
    Reads loop r true (commaList item limit what n count) fun ts _ as =>
      Separated I ts as ∧ count + as.length ≤ limit := by
  induction n generalizing r count with
  | zero =>
    obtain rfl := Nat.le_zero.1 hn
    exact .zero
  | succ n ih =>
    have items : ∀ rest : α → Option Token → Reader (List α), (∀ a, rest a none = pure [a]) →
        (∀ a comma, rest a (some comma) = (do return a :: (← commaList item limit what n (count + 1)))) →
        Reads loop r true (item >>= fun a => accept .comma >>= rest a)
          fun ts _ as => Separated I ts as ∧ (count < limit → count + as.length ≤ limit) := by
      intro rest hnone hsome
      refine .bind (hi r (Nat.le_refl r)) fun first r₁ h₁ => ?_
      refine .take (fun comma r₂ h₂ _ hcomma => ?_) ?_
      · rw [hsome]
        refine .bind (ih (fun s hs => hi s (by omega)) (by omega) (count + 1)) fun others r₃ h₃ => ?_
        refine .pure fun _ us hus ts hts => ⟨?_, fun _ => ?_⟩
        · simpa using .more hts (by simpa using hcomma) hus.1
        · have hcount := hus.2
          rw [List.length_cons]
          omega
      · rw [hnone]
        exact .pure fun _ _ ts hts => ⟨by simpa using .one hts, fun h => h⟩
    rw [commaList]
    split
    · exact .peek fun t => .report _ _ ((items _ (fun _ => rfl) fun _ _ => rfl).mono fun _ _ _ _ => trivial)
    · exact (items _ (fun _ => rfl) fun _ _ => rfl).mono fun _ _ _ h => ⟨h.1, h.2 (by omega)⟩

theorem listUntil_reads {α : Type} {item : Reader α} {I : List Token → α → Prop}
    {closing : Token.Kind} {limit : Nat} {what : String} (hi : ∀ r' ≤ r, Takes loop r' item I)
    (hn : r ≤ n) :
    Reads loop r false (listUntil n closing item limit what) fun ts _ as => Listed I limit ts as := by
  refine .sees fun b => ?_
  cases b with
  | true => exact .pure fun _ => .none
  | false => exact (commaList_reads hi hn 0).weaken.mono fun ts _ as h => .some h.1 (by simpa using h.2)

theorem callTail_reads (he : ∀ r' < r, Takes loop r' expression Expression) (hn : r ≤ n) (e : Expr) :
    Reads loop r false (callTail expression n e) fun us _ e' => ∀ ts, Call ts e → Call (ts ++ us) e' := by
  induction n generalizing r e with
  | zero =>
    obtain rfl := Nat.le_zero.1 hn
    exact .zero
  | succ n ih =>
    refine .take (fun t r₁ h₁ _ ht => ?_) ?_
    · have ih : ∀ r' ≤ r₁, _ := fun r' h' => ih (r := r') (fun s hs => he s (by omega)) (by omega)
      dsimp only
      by_cases hleft : t.kind = .leftParen
      · rw [if_pos hleft]
        refine .bindStill (listUntil_reads (fun s hs => he s (by omega)) (by omega)) fun as r₂ h₂ => ?_
        refine .expect fun right r₃ h₃ hright => ?_
        refine (ih r₃ (by omega) _).mono fun us _ e' h as has fs hfs => ?_
        simpa using h _ (.call hfs hleft has hright)
      · rw [if_neg hleft]
        have hdot : t.kind = .dot := by simpa [hleft] using ht
        refine .expect fun name r₂ h₂ hname => ?_
        refine (ih r₂ (by omega) _).mono fun us _ e' h os hos => ?_
        simpa using h _ (.property hos hdot hname)
    · exact .pure fun _ _ ts hts => by simpa using hts

theorem lambda_reads {what : String} (hb : ∀ r' < r, TakesBlock false r' block) (hn : r ≤ n) :
    Takes loop r (lambda n block what) Function := by
  have parameter : ∀ {s}, Takes false s (expect .identifier "parameter name") Parameter :=
    Reads.token.mono fun ts _ t ⟨hts, ht⟩ => hts ▸ .name ht
  refine .inFunction (.expect fun left r₁ h₁ hleft => ?_)
  refine .bindStill (listUntil_reads (fun s hs => parameter) (by omega)) fun params r₂ h₂ => ?_
  refine .expect fun right r₃ h₃ hright => ?_
  refine .expect fun opening r₄ h₄ hopening => ?_
  refine .bind (hb r₄ (by omega)) fun body r₅ h₅ => ?_
  refine .pure fun _ bs hbs ps hps => ?_
  obtain ⟨bs, closing, rfl, hclosing, hbody⟩ := hbs
  simpa using Phrase.Function.mk hleft hps hright hopening hbody hclosing

theorem primary_reads (he : ∀ r' < r, Takes loop r' expression Expression)
    (hb : ∀ r' < r, TakesBlock false r' block) (hn : r ≤ n) : Takes loop r (primary n expression block) Primary := by
  refine .take (fun t r₁ h₁ _ ht => ?_) (.peek fun t => .giveUp _ _)
  dsimp only
  split
  case h_1 h => exact .pure fun _ => .no h
  case h_2 h => exact .pure fun _ => .yes h
  case h_3 h => exact .pure fun _ => .nil h
  case h_4 h => exact .pure fun _ => .self h
  case h_5 h => exact .pure fun _ => .ref h
  case h_6 h =>
    refine .bind (lambda_reads (fun s hs => hb s (by omega)) (by omega)) fun f r₂ h₂ => ?_
    exact .pure fun _ ts hts => by simpa using .function h hts
  case h_7 h =>
    refine .bindStill (listUntil_reads (fun s hs => he s (by omega)) (by omega)) fun es r₂ h₂ => ?_
    refine .expect fun right r₃ h₃ hright => ?_
    exact .pure fun _ ts hts => by simpa using .list h hts hright
  case h_8 h =>
    refine .bind (he r₁ h₁) fun e r₂ h₂ => ?_
    refine .expect fun right r₃ h₃ hright => ?_
    exact .pure fun _ ts hts => by simpa using .group h hts hright
  case h_9 =>
    refine .pure fun _ => .literal ?_
    simp_all [startsOperand]

theorem unary_reads (hu : ∀ r' < r, Takes loop r' unary Unary)
    (he : ∀ r' < r, Takes loop r' expression Expression)
    (hb : ∀ r' < r, TakesBlock false r' block) (hn : r ≤ n) :
    Takes loop r (Grammar.unary n unary expression block) Unary := by
  refine .take (fun op r₁ h₁ _ hop => ?_) ?_
  · refine .bind (hu r₁ h₁) fun e r₂ h₂ => ?_
    exact .pure fun _ ts hts => by simpa using .operator (by simpa using hop) hts
  · refine .bind (primary_reads he hb hn) fun operand r₁ h₁ => ?_
    refine (callTail_reads (fun s hs => he s (by omega)) (by omega) operand).mono
      fun us _ e h ts hts _ => ?_
    exact .operand (h ts (.primary hts))

end expressions

section statements

variable {loop : Bool} {r n : Nat} {expression : Reader Expr} {statement : Reader Stmt}
  {block : Reader (List Stmt)}

theorem expressionStmt_reads (he : ∀ r' ≤ r, Takes loop r' expression Expression) :
    Takes loop r (expressionStmt expression) fun ts t => ∃ es e semicolon, ts = es ++ [semicolon] ∧
      t = .expression e ∧ Expression es e ∧ semicolon.kind = .semicolon := by
  refine .bind (he r (Nat.le_refl r)) fun e r₁ h₁ => ?_
  refine .expect fun semicolon r₂ h₂ hsemicolon => ?_
  exact .pure fun _ ts hts => ⟨ts, e, semicolon, rfl, rfl, hts, hsemicolon⟩

theorem varDecl_reads (he : ∀ r' < r, Takes loop r' expression Expression) :
    Takes loop r (varDecl expression) fun ts t =>
      ∀ word, word.kind = .kwVar → Variable (word :: ts) t := by
  refine .expect fun name r₁ h₁ hname => ?_
  refine .take (fun equal r₂ h₂ _ hequal => ?_) ?_
  · refine .bind (.map some (he r₂ (by omega))) fun initial r₃ h₃ => ?_
    refine .expect fun semicolon r₄ h₄ hsemicolon => ?_
    refine .pure fun _ es hes word hword => ?_
    obtain ⟨e, rfl, hes⟩ := hes
    simpa using .initial hword hname (by simpa using hequal) hes hsemicolon
  · refine .bindStill (P := fun ts _ o => ts = [] ∧ o = none) (.pure fun _ => ⟨rfl, rfl⟩)
      fun initial r₃ h₃ => ?_
    refine .expect fun semicolon r₄ h₄ hsemicolon => ?_
    refine .pure fun _ es hes _ word hword => ?_
    obtain ⟨rfl, rfl⟩ := hes
    simpa using .plain hword hname hsemicolon

theorem optional_reads (he : Takes loop r expression Expression) :
    Takes loop r (some <$> expression) (Optional Expression) :=
  (he.map some).mono fun _ _ _ ⟨_, ho, hts⟩ => ho ▸ .some hts

theorem returnStmt_reads (he : ∀ r' ≤ r, Takes loop r' expression Expression) (word : Token) :
    Takes loop r (returnStmt word expression) fun ts t =>
      word.kind = .kwReturn → Statement loop false (word :: ts) t := by
  refine .leftOut (fun _ => .none) (optional_reads (he r (Nat.le_refl r))) fun value r₁ h₁ => ?_
  refine .expect fun semicolon r₂ h₂ hsemicolon => ?_
  exact .pure fun _ ts hts hword => by simpa using .ret hword hts hsemicolon

theorem printStmt_reads (he : ∀ r' ≤ r, Takes loop r' expression Expression) :
    Takes loop r (printStmt expression) fun ts t =>
      ∀ word, word.kind = .kwPrint → Statement loop false (word :: ts) t := by
  refine .bind (he r (Nat.le_refl r)) fun e r₁ h₁ => ?_
  refine .expect fun semicolon r₂ h₂ hsemicolon => ?_
  exact .pure fun _ ts hts word hword => by simpa using .print hword hts hsemicolon

theorem jump_reads {word : Token} {node : Token → Stmt}
    (hnode : ∀ semicolon, semicolon.kind = .semicolon → Statement true false [word, semicolon] (node word)) :
    Takes loop r (jump word node) fun ts t => Statement loop false (word :: ts) t := by
  refine .asking ?_
  cases loop with
  | true =>
    refine .expect fun semicolon r₁ h₁ hsemicolon => ?_
    exact .pure fun _ => hnode semicolon hsemicolon
  | false => exact .giveUp _ _

theorem whileStmt_reads (he : ∀ r' < r, Takes loop r' expression Expression)
    (hs : ∀ r' < r, TakesStatement true r' statement) {word : Token} (hword : word.kind = .kwWhile) :
    Reads loop r true (whileStmt expression statement) fun ts rest t => ∃ dangling,
      Statement loop dangling (word :: ts) t ∧
        (dangling = true → ∀ u us, rest = u :: us → u.kind ≠ .kwElse) := by
  refine .expect fun left r₁ h₁ hleft => ?_
  refine .bind (he r₁ h₁) fun c r₂ h₂ => ?_
  refine .expect fun right r₃ h₃ hright => ?_
  refine .bind (.inLoop (hs r₃ (by omega))) fun b r₄ h₄ => ?_
  refine .pure fun rest bs ⟨dangling, hb, hrest⟩ cs hcs => ⟨dangling, ?_, hrest⟩
  simpa using .whileLoop hword hleft hcs hright hb

theorem forInit_reads (he : ∀ r' ≤ r, Takes loop r' expression Expression) :
    Takes loop r (forInit expression) Clause := by
  refine .take (fun t r₁ h₁ _ ht => ?_) ?_
  · dsimp only
    by_cases hsemicolon : t.kind = .semicolon
    · rw [if_pos hsemicolon]
      exact .pure fun _ => .none hsemicolon
    · rw [if_neg hsemicolon]
      have hword : t.kind = .kwVar := by simpa [hsemicolon] using ht
      refine ((varDecl_reads fun s hs => he s (by omega)).map some).weaken.mono fun ts _ o ⟨v, ho, hv⟩ => ?_
      exact ho ▸ .varDecl (hv t hword)
  · refine ((expressionStmt_reads he).map some).mono fun ts _ o ⟨t, ho, ht⟩ _ => ?_
    obtain ⟨es, e, semicolon, rfl, rfl, hes, hsemicolon⟩ := ht
    exact ho ▸ .expression hes hsemicolon

theorem forStmt_reads (he : ∀ r' < r, Takes loop r' expression Expression)
    (hs : ∀ r' < r, TakesStatement true r' statement) {word : Token} (hword : word.kind = .kwFor) :
    Reads loop r true (forStmt expression statement) fun ts rest t => ∃ dangling,
      Statement loop dangling (word :: ts) t ∧
        (dangling = true → ∀ u us, rest = u :: us → u.kind ≠ .kwElse) := by
  refine .expect fun left r₁ h₁ hleft => ?_
  refine .bind (forInit_reads fun s hs => he s (by omega)) fun initial r₂ h₂ => ?_
  refine .leftOut (P := fun ts _ c => ∃ o : Option Expr, c = o.getD (.literal (.bool true)) ∧
    Optional Expression ts o) (fun _ => ⟨none, rfl, .none⟩)
    ((he r₂ (by omega)).mono fun _ _ c h => ⟨some c, rfl, .some h⟩) fun condition r₃ h₃ => ?_
  refine .expect fun semicolon r₄ h₄ hsemicolon => ?_
  refine .leftOut (fun _ => .none) (optional_reads (he r₄ (by omega))) fun step r₅ h₅ => ?_
  refine .expect fun right r₆ h₆ hright => ?_
  refine .bind (.inLoop (hs r₆ (by omega))) fun body r₇ h₇ => ?_
  have derives : ∀ {rest bs ss cs is : List Token},
      (∃ dangling, Statement true dangling bs body ∧
        (dangling = true → ∀ u us, rest = u :: us → u.kind ≠ .kwElse)) →
      Optional Expression ss step → (∃ o : Option Expr, condition = o.getD (.literal (.bool true)) ∧
        Optional Expression cs o) → Clause is initial →
      ∃ dangling, Statement loop dangling
        (word :: left :: (is ++ (cs ++ semicolon :: (ss ++ right :: (bs ++ [])))))
        (forLoop initial (some condition) step body) ∧
        (dangling = true → ∀ u us, rest = u :: us → u.kind ≠ .kwElse) := by
    rintro rest bs ss cs is ⟨dangling, hb, hrest⟩ hss ⟨o, rfl, hcs⟩ his
    have h : Statement loop dangling _ _ := .forLoop hword hleft his hcs hsemicolon hss hright hb
    have hloop : forLoop initial (some (o.getD (.literal (.bool true)))) step body =
        forLoop initial o step body := by cases o <;> rfl
    exact ⟨dangling, by simpa [hloop] using h, hrest⟩
  cases initial with
  | none => exact .pure fun _ bs hbs ss hss cs hcs is his => derives hbs hss hcs his
  | some s => exact .pure fun _ bs hbs ss hss cs hcs is his => derives hbs hss hcs his

theorem ifStmt_reads (he : ∀ r' < r, Takes loop r' expression Expression)
    (hs : ∀ r' < r, TakesStatement loop r' statement) {word : Token} (hword : word.kind = .kwIf) :
    Reads loop r true (ifStmt expression statement) fun ts rest t => ∃ dangling,
      Statement loop dangling (word :: ts) t ∧
        (dangling = true → ∀ u us, rest = u :: us → u.kind ≠ .kwElse) := by
  refine .expect fun left r₁ h₁ hleft => ?_
  refine .bind (he r₁ h₁) fun c r₂ h₂ => ?_
  refine .expect fun right r₃ h₃ hright => ?_
  refine .bind (hs r₃ (by omega)) fun y r₄ h₄ => ?_
  refine .take (fun other r₅ h₅ _ hother => ?_) ?_
  · refine .bind (.map some (hs r₅ (by omega))) fun no r₆ h₆ => ?_
    refine .pure fun rest ns ⟨n, hno, dangling, hn, hrest⟩ ys ⟨unmatched, hy, hclosed⟩ cs hcs => ?_
    have hother : other.kind = .kwElse := by simpa using hother
    cases unmatched with
    | true => exact absurd hother (hclosed rfl other (ns ++ rest) (by simp))
    | false =>
      refine ⟨dangling, ?_, hrest⟩
      simpa [hno] using Statement.ifElse hword hleft hcs hright hy hother hn
  · refine .bindStill (P := fun ts _ o => ts = [] ∧ o = none) (.pure fun _ => ⟨rfl, rfl⟩)
      fun no r₆ h₆ => ?_
    refine .pure fun rest ns ⟨hns, hno⟩ hrest ys ⟨dangling, hy, _⟩ cs hcs => ⟨true, ?_, fun _ u us hu => ?_⟩
    · simpa [hns, hno] using .ifThen hword hleft hcs hright hy
    · intro hother
      have hne := hrest u us (by simpa [hns] using hu) (by simp [hother])
      simp [hother] at hne

theorem statement_reads (he : ∀ r' ≤ r, Takes loop r' expression Expression)
    (hs : ∀ loop, ∀ r' < r, TakesStatement loop r' statement)
    (hb : ∀ r' < r, TakesBlock loop r' block) :
    TakesStatement loop r (Grammar.statement expression statement block) := by
  have closed : ∀ {s : Nat} {p : Reader Stmt} {t : Token},
      Takes loop s p (fun ts a => Statement loop false (t :: ts) a) →
      Reads loop s false p fun us rest a => ∃ dangling, Statement loop dangling (t :: us) a ∧
        (dangling = true → ∀ u us, rest = u :: us → u.kind ≠ .kwElse) :=
    fun h => h.weaken.mono fun ts rest a hs => ⟨false, hs, by simp⟩
  have he' : ∀ r' < r, Takes loop r' expression Expression := fun r' h => he r' (by omega)
  refine .take (fun t r₁ h₁ _ ht => ?_) ?_
  · dsimp only
    split
    case h_1 h => exact closed (jump_reads fun _ hs => .breakLoop h hs)
    case h_2 h => exact closed (jump_reads fun _ hs => .continueLoop h hs)
    case h_3 h => exact (forStmt_reads (fun s _ => he s (by omega)) (fun s _ => hs true s (by omega)) h).weaken
    case h_4 h => exact (ifStmt_reads (fun s _ => he s (by omega)) (fun s _ => hs loop s (by omega)) h).weaken
    case h_5 h => exact closed ((printStmt_reads fun s _ => he s (by omega)).mono fun _ _ _ hp => hp t h)
    case h_6 h => exact closed ((returnStmt_reads (fun s _ => he s (by omega)) t).mono fun _ _ _ hr => hr h)
    case h_7 h => exact (whileStmt_reads (fun s _ => he s (by omega)) (fun s _ => hs true s (by omega)) h).weaken
    case h_8 =>
      have hopening : t.kind = .leftBrace := by simp_all [startsPlainStmt]
      refine .bind (hb r₁ h₁) fun body r₂ h₂ => .pure fun _ bs hbs => ⟨false, ?_, by simp⟩
      obtain ⟨bs, closing, rfl, hclosing, hbody⟩ := hbs
      simpa using Statement.block hopening hbody hclosing
  · refine (expressionStmt_reads he).mono fun ts rest t ht _ => ?_
    obtain ⟨es, e, semicolon, rfl, rfl, hes, hsemicolon⟩ := ht
    exact ⟨false, .expression hes hsemicolon, by simp⟩

theorem function_reads {what : String} (hb : ∀ r' < r, TakesBlock false r' block) (hn : r ≤ n) :
    Takes loop r (function n block what) fun ts a => ∃ fs, ts = a.1 :: fs ∧
      a.1.kind = .identifier ∧ Function fs a.2 := by
  refine .expect fun name r₁ h₁ hname => ?_
  refine .bind (lambda_reads (fun s hs => hb s (by omega)) (by omega)) fun f r₂ h₂ => ?_
  exact .pure fun _ ts hts => ⟨ts, by simp, hname, hts⟩

theorem methods_reads (hb : ∀ r' < r, TakesBlock false r' block) {m : Nat} (hn : r ≤ n) (hm : r ≤ m) :
    Reads loop r false (methods n block m) fun ts _ ms => Methods ts ms := by
  induction m generalizing r with
  | zero =>
    obtain rfl := Nat.le_zero.1 hm
    exact .zero
  | succ m ih =>
    refine .sees fun b => .atEnd fun b' => ?_
    split
    · exact .pure fun _ => .none
    · refine .bind (function_reads hb hn) fun a r₁ h₁ => ?_
      refine .bindStill (ih (fun s hs => hb s (by omega)) (by omega) (by omega)) fun ms r₂ h₂ => ?_
      refine .pure fun _ us hus ts hts => ?_
      obtain ⟨fs, rfl, hname, hf⟩ := hts
      simpa using .more hname hf hus

theorem classDecl_reads (hb : ∀ r' < r, TakesBlock false r' block) (hn : r ≤ n) :
    Takes loop r (classDecl n block) fun ts t =>
      ∀ word, word.kind = .kwClass → Declaration loop (word :: ts) t := by
  refine .expect fun name r₁ h₁ hname => ?_
  refine .expect fun opening r₂ h₂ hopening => ?_
  refine .bindStill (methods_reads (fun s hs => hb s (by omega)) (by omega) (by omega)) fun ms r₃ h₃ => ?_
  refine .expect fun closing r₄ h₄ hclosing => ?_
  exact .pure fun _ ts hts word hword => by
    simpa using .classDecl hword hname hopening hts hclosing

/-- Anywhere but at the end the reader takes a declaration, or what is left of one after an error. -/
def TakesDeclaration (loop : Bool) (r : Nat) (declaration : Reader (Option Stmt)) : Prop :=
  ∀ c : Cursor, c.Whole → c.inLoop = loop → c.rest.length ≤ r →
    (∀ t us, c.rest = t :: us → t.kind ≠ .eof) →
    Comes c true (fun ts _ o => ∃ t, o = some t ∧ Declaration loop ts t) (declaration c)

theorem attempt_reads (he : ∀ r' ≤ r, Takes loop r' expression Expression)
    (hs : ∀ r' ≤ r, TakesStatement loop r' statement) (hb : ∀ r' < r, TakesBlock false r' block)
    (hn : r ≤ n) : Takes loop r (attempt n expression statement block) (Declaration loop) := by
  refine .take (fun word r₁ h₁ _ hword => ?_) ?_
  · refine ((classDecl_reads hb hn).less (by omega)).weaken.mono fun ts _ t ht => ?_
    exact ht word (by simpa using hword)
  · refine .namedFunction (fun word r₁ h₁ hword => ?_) ?_
    · refine .bind (function_reads (fun s hs => hb s (by omega)) (by omega)) fun a r₂ h₂ => ?_
      refine .pure fun _ ts hts _ => ?_
      obtain ⟨fs, rfl, hname, hf⟩ := hts
      simpa using .funDecl hword hname hf
    · refine .take (fun word r₁ h₁ _ hword => ?_) ?_
      · refine (varDecl_reads fun s hs => he s (by omega)).weaken.mono fun ts _ t ht _ => ?_
        exact .varDecl (ht word (by simpa using hword))
      · exact (hs r (Nat.le_refl r)).mono fun ts _ t ⟨_, ht, _⟩ _ _ => .statement ht

theorem declaration_reads (he : ∀ r' ≤ r, Takes loop r' expression Expression)
    (hs : ∀ r' ≤ r, TakesStatement loop r' statement) (hb : ∀ r' < r, TakesBlock false r' block)
    (hn : r ≤ n) : TakesDeclaration loop r (Grammar.declaration n expression statement block) :=
  fun _ hc hl hr hend => (attempt_reads he hs hb hn).recovering hc hl hr hend

theorem declarations_reads {closing : Token.Kind} {declaration : Reader (Option Stmt)}
    (hd : ∀ r' ≤ r, TakesDeclaration loop r' declaration) (hn : r ≤ n) :
    Reads loop r false (declarations closing declaration n) fun ts rest ss => Declarations loop ts ss ∧
      ∀ u us, rest = u :: us → u.kind = .eof ∨ u.kind = closing := by
  induction n generalizing r with
  | zero =>
    obtain rfl := Nat.le_zero.1 hn
    exact .zero
  | succ n ih =>
    intro c hc hl hr
    obtain ⟨t, us, ht⟩ := hc.head
    rw [declarations, sees_bind ht, atEnd_bind ht]
    split
    case isTrue h =>
      refine ⟨[], [], hc.refl, by simp, fun _ => ⟨.none, fun u vs hu => ?_⟩⟩
      obtain ⟨rfl, rfl⟩ := List.cons.inj (ht.symm.trans hu)
      by_cases hkind : t.kind = .eof
      · exact .inl hkind
      · exact .inr (by simpa [hkind] using h)
    case isFalse h =>
      have hkind : t.kind ≠ .eof := fun hkind => h (by simp [hkind])
      have hdecl := hd r (Nat.le_refl r) c hc hl hr fun u vs hu => by
        obtain ⟨rfl, rfl⟩ := List.cons.inj (ht.symm.trans hu)
        exact hkind
      refine (hdecl.bind (w := false) fun o c' ts new hmoves hts => ?_).mono (by simp) fun _ _ _ _ h => h
      have hlt := hmoves.length_lt (hts rfl)
      refine (ih (r := c'.rest.length) (fun s hs => hd s (by omega)) (by omega)).bindStill (m := false)
        (fun others r₂ h₂ => ?_) c' hmoves.whole (hmoves.inLoop.trans hl) (Nat.le_refl _)
      refine .pure fun rest us ⟨hus, hrest⟩ ⟨t, ho, ht⟩ => ⟨?_, hrest⟩
      simpa [ho] using .more ht hus

theorem block_reads {declaration : Reader (Option Stmt)}
    (hd : ∀ r' ≤ r, TakesDeclaration loop r' declaration) (hn : r ≤ n) :
    TakesBlock loop r (Grammar.block n declaration) := by
  refine .bindStill (declarations_reads hd hn) fun body r₁ h₁ => ?_
  refine .expect fun closing r₂ h₂ hclosing => ?_
  exact .pure fun _ ts hts => ⟨ts, closing, rfl, hclosing, hts.1⟩

end statements

/-- How much fuel each rule needs for each number of tokens. -/
theorem readers_take (n : Nat) : ∀ (loop : Bool) (r : Nat),
    (8 * r + 1 ≤ n → Takes loop r (Reader.unary n) Unary) ∧
    (8 * r + 2 ≤ n → Takes loop r (Reader.conditional n) Conditional) ∧
    (8 * r + 3 ≤ n → Takes loop r (Reader.expression n) Expression) ∧
    (8 * r + 4 ≤ n → TakesStatement loop r (Reader.statement n)) ∧
    (8 * r + 5 ≤ n → TakesDeclaration loop r (Reader.declaration n)) ∧
    (8 * r + 6 ≤ n → TakesBlock loop r (Reader.block n)) := by
  induction n with
  | zero => intro loop r; refine ⟨?_, ?_, ?_, ?_, ?_, ?_⟩ <;> omega
  | succ n ih =>
    intro loop r
    have hu := fun loop r => (ih loop r).1
    have hc := fun loop r => (ih loop r).2.1
    have he := fun loop r => (ih loop r).2.2.1
    have hs := fun loop r => (ih loop r).2.2.2.1
    have hd := fun loop r => (ih loop r).2.2.2.2.1
    have hb := fun loop r => (ih loop r).2.2.2.2.2
    refine ⟨fun h => ?_, fun h => ?_, fun h => ?_, fun h => ?_, fun h => ?_, fun h => ?_⟩
    · exact unary_reads (fun r' _ => hu loop r' (by omega)) (fun r' _ => he loop r' (by omega))
        (fun r' _ => hb false r' (by omega)) (by omega)
    · exact conditional_reads (fun r' _ => hu loop r' (by omega)) (fun r' _ => hc loop r' (by omega))
        (by omega)
    · exact assignment_reads (fun r' _ => hc loop r' (by omega)) (fun r' _ => he loop r' (by omega))
        (by omega)
    · exact statement_reads (fun r' _ => he loop r' (by omega)) (fun l r' _ => hs l r' (by omega))
        (fun r' _ => hb loop r' (by omega))
    · exact declaration_reads (fun r' _ => he loop r' (by omega)) (fun r' _ => hs loop r' (by omega))
        (fun r' _ => hb false r' (by omega)) (by omega)
    · exact block_reads (fun r' _ => hd loop r' (by omega)) (by omega)

end LoxLang.Grammar

namespace LoxLang

open Reader Grammar Phrase

theorem recovering_ne {α : Type} (p : Reader α) (c c' : Cursor) :
    recovering p c ≠ .error .reported c' := by
  rw [recovering]
  split <;> simp

theorem declarations_ne {closing : Token.Kind} {declaration : Reader (Option Stmt)}
    (hd : ∀ c c', declaration c ≠ .error .reported c') (n : Nat) (c c' : Cursor) :
    declarations closing declaration n c ≠ .error .reported c' := by
  induction n generalizing c c' with
  | zero => simp [declarations, stuck, Stopping.throw_apply]
  | succ n ih =>
    obtain ⟨before, _ | ⟨t, us⟩, loops, reports⟩ := c
    · have hsees : sees closing ⟨before, [], loops, reports⟩ = .error .stuck ⟨before, [], loops, reports⟩ :=
        rfl
      rw [declarations, Stopping.bind_error hsees]
      simp
    · rw [declarations, sees_bind rfl, atEnd_bind rfl]
      split
      · simp [Stopping.pure_apply]
      · match hx : declaration ⟨before, t :: us, loops, reports⟩ with
        | .ok o c₁ =>
          rw [Stopping.bind_ok hx]
          match hy : declarations closing declaration n c₁ with
          | .ok others c₂ =>
            rw [Stopping.bind_ok hy]
            simp [Stopping.pure_apply]
          | .error .reported c₂ => exact absurd hy (ih c₁ c₂)
          | .error .stuck c₂ =>
            rw [Stopping.bind_error hy]
            simp
        | .error .reported c₁ => exact absurd hx (hd _ _)
        | .error .stuck c₁ =>
          rw [Stopping.bind_error hx]
          simp

theorem ended_append {body : List Token} {last : Token} (hbody : ∀ t ∈ body, t.kind ≠ .eof)
    (hlast : last.kind = .eof) : Ended (body ++ [last]) := by
  induction body with
  | nil => exact .last hlast
  | cons t ts ih => exact .more (hbody t (by simp)) (ih fun u hu => hbody u (by simp [hu]))

/-- Reading always ends, and what it reads without a report derives from the grammar. -/
theorem parse_sound {body : List Token} {last : Token} (hbody : ∀ t ∈ body, t.kind ≠ .eof)
    (hlast : last.kind = .eof) : ∃ ss reports, parse (body ++ [last]) = (some ss, reports) ∧
      (reports = [] → Program body ss) := by
  have hended := ended_append hbody hlast
  let n := depthPerToken * ((body ++ [last]).length + 1)
  have hn : 8 * (body ++ [last]).length + 5 ≤ n := by simp only [n, depthPerToken]; omega
  have h : Comes _ _ _ (Reader.program n (Cursor.ofTokens (body ++ [last]))) :=
    declarations_reads (n := n)
      (fun r' h => (readers_take n false r').2.2.2.2.1 (by omega)) (r := (body ++ [last]).length)
      (by omega) (Cursor.ofTokens (body ++ [last])) ⟨hended, by simp [Cursor.ofTokens]⟩ rfl (Nat.le_refl _)
  match hx : Reader.program n (Cursor.ofTokens (body ++ [last])) with
  | .ok ss c' =>
    rw [hx] at h
    obtain ⟨ts, new, hmoves, -, hQ⟩ := h
    refine ⟨ss, c'.reports.reverse, by simp only [parse, n] at hx ⊢; rw [hx], fun hnil => ?_⟩
    have hnew : new = [] := by
      have hreports := hmoves.reports
      simp_all [Cursor.ofTokens]
    obtain ⟨hss, hrest⟩ := hQ hnew
    have hts : ts = body := by
      obtain ⟨u, us, hu⟩ := hmoves.whole.head
      have hkind : u.kind = .eof := by simpa using hrest u us hu
      have hwhole := hmoves.whole.ended
      rw [hu] at hwhole
      cases hwhole with
      | last =>
        have hbody := hmoves.rest
        rw [hu] at hbody
        exact (List.append_inj_left' hbody rfl).symm
      | more hne => exact absurd hkind hne
    exact hts ▸ hss
  | .error .reported c' =>
    refine absurd hx (declarations_ne (fun c c' => ?_) n _ c')
    cases n with
    | zero => simp [Reader.declaration, stuck, Stopping.throw_apply]
    | succ n => exact recovering_ne _ c c'
  | .error .stuck c' =>
    rw [hx] at h
    exact h.elim

end LoxLang
