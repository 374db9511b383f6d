import LoxLang.Proofs.Stopping
import LoxLang.Proofs.Lines.Tree
import LoxLang.Tree.Grammar

namespace LoxLang

open Stopping

namespace Cursor

/-- A change of place: tokens with other lines, older ones before them, and reports made earlier. -/
structure Move where
  lines : Int → Int := id
  older : List Token := []
  made : List Report := []

variable (m : Move)

def moved (c : Cursor) : Cursor :=
  ⟨c.before.map (Token.reline m.lines) ++ m.older, c.rest.map (Token.reline m.lines), c.loops,
    c.reports.map (Report.reline m.lines) ++ m.made⟩

variable (c : Cursor)

theorem moved_still : c.moved {} = c := by
  simp [moved, Token.reline_id, Report.reline_id]

theorem enterLoop_moved : (c.moved m).enterLoop = c.enterLoop.moved m := by
  obtain ⟨before, rest, _ | ⟨d, ds⟩, reports⟩ := c <;> rfl

theorem leaveLoop_moved : (c.moved m).leaveLoop = c.leaveLoop.moved m := by
  obtain ⟨before, rest, _ | ⟨d, ds⟩, reports⟩ := c <;> rfl

theorem skip_moved {before : List Token} (h : before ≠ []) (rest : List Token) :
    skip (before.map (Token.reline m.lines) ++ m.older) (rest.map (Token.reline m.lines)) =
      ((skip before rest).1.map (Token.reline m.lines) ++ m.older, (skip before rest).2.map (Token.reline m.lines)) := by
  induction rest generalizing before with
  | nil => rfl
  | cons t rest ih =>
    have hlast : (before.map (Token.reline m.lines) ++ m.older).head?.map Token.kind = before.head?.map Token.kind := by
      obtain ⟨u, us, rfl⟩ := List.exists_cons_of_ne_nil h
      rfl
    rw [List.map_cons, skip, skip, hlast, Token.kind_reline]
    split
    · rfl
    · exact ih (List.cons_ne_nil t before)

theorem recover_moved : (c.moved m).recover = c.recover.moved m := by
  obtain ⟨before, _ | ⟨t, rest⟩, loops, reports⟩ := c
  · rfl
  · simp only [recover, moved, List.map_cons, Token.kind_reline]
    split
    · rfl
    · rw [← List.cons_append, ← List.map_cons, skip_moved m (List.cons_ne_nil t before)]

end Cursor

section readers

variable {m : Cursor.Move} {α β γ δ : Type}

/-- Unless the first reader is stuck, the second reads the image of what the first reads, where the place is moved. -/
def Outlasts (m : Cursor.Move) (g : α → β) (p : Reader α) (p' : Reader β) : Prop :=
  ∀ c : Cursor, match p c with
    | .ok a d => p' (c.moved m) = .ok (g a) (d.moved m)
    | .error .reported d => p' (c.moved m) = .error .reported (d.moved m)
    | .error .stuck _ => True

namespace Outlasts

variable {g : α → β} {h : γ → δ} {p q : Reader α} {p' q' : Reader β} {k : α → Reader γ} {k' : β → Reader δ} {c d : Cursor}

theorem ok (hp : Outlasts m g p p') {a : α} (hpc : p c = .ok a d) : p' (c.moved m) = .ok (g a) (d.moved m) := by
  have hc := hp c
  rw [hpc] at hc
  exact hc

theorem reported (hp : Outlasts m g p p') (hpc : p c = .error .reported d) :
    p' (c.moved m) = .error .reported (d.moved m) := by
  have hc := hp c
  rw [hpc] at hc
  exact hc

theorem eq {g : α → α} {p' : Reader α} (hp : Outlasts {} g p p') (hg : ∀ a, g a = a)
    (hstuck : ∀ d, p c ≠ .error .stuck d) : p' c = p c := by
  match hpc : p c with
  | .ok a d => simpa only [Cursor.moved_still, hg] using hp.ok hpc
  | .error .reported d => simpa only [Cursor.moved_still] using hp.reported hpc
  | .error .stuck d => exact absurd hpc (hstuck d)

theorem stuck : Outlasts m g Reader.stuck p' := fun _ => trivial

theorem pure {a : α} {b : β} (hb : b = g a) : Outlasts m g (pure a) (pure b) := fun _ => hb ▸ rfl

theorem bind (hp : Outlasts m g p p') (hk : ∀ a, Outlasts m h (k a) (k' (g a))) :
    Outlasts m h (p >>= k) (p' >>= k') := by
  intro c
  match hpc : p c with
  | .ok a d =>
    rw [bind_ok hpc, bind_ok (hp.ok hpc)]
    exact hk a d
  | .error .reported d =>
    rw [bind_error hpc, bind_error (hp.reported hpc)]
  | .error .stuck d =>
    rw [bind_error hpc]
    trivial

theorem map {f : α → γ} {f' : β → δ} (hp : Outlasts m g p p') (hf : ∀ a, f' (g a) = h (f a)) :
    Outlasts m h (f <$> p) (f' <$> p') := by
  rw [map_eq_pure_bind, map_eq_pure_bind]
  exact hp.bind fun a => pure (hf a)

theorem ite {b b' : Prop} [Decidable b] [Decidable b'] (hb : b' ↔ b) (hp : Outlasts m g p p')
    (hq : Outlasts m g q q') : Outlasts m g (if b then p else q) (if b' then p' else q') := by
  by_cases hyes : b
  · rw [if_pos hyes, if_pos (hb.2 hyes)]
    exact hp
  · rw [if_neg hyes, if_neg (mt hb.1 hyes)]
    exact hq

theorem peek : Outlasts m (Token.reline m.lines) Reader.peek Reader.peek := by
  rintro ⟨before, _ | ⟨t, rest⟩, loops, reports⟩
  · trivial
  · rfl

theorem previous : Outlasts m (Token.reline m.lines) Reader.previous Reader.previous := by
  rintro ⟨_ | ⟨t, before⟩, rest, loops, reports⟩
  · trivial
  · rfl

theorem report (t : Token) (complaint : Complaint) :
    Outlasts m id (Reader.report t complaint) (Reader.report (t.reline m.lines) complaint) := fun _ => rfl

theorem giveUp (t : Token) (complaint : Complaint) :
    Outlasts m g (Reader.giveUp t complaint) (Reader.giveUp (t.reline m.lines) complaint) := fun _ => rfl

theorem take? (test : Token.Kind → Bool) :
    Outlasts m (Option.map (Token.reline m.lines)) (Reader.take? test) (Reader.take? test) := by
  rintro ⟨before, _ | ⟨t, rest⟩, loops, reports⟩
  · trivial
  · by_cases htest : t.kind ≠ .eof ∧ test t.kind = true
    · simp [Reader.take?, Cursor.moved, if_pos htest]
    · simp only [Reader.take?, Cursor.moved, List.map_cons, Token.kind_reline, if_neg htest, Option.map_none]

theorem accept (kind : Token.Kind) :
    Outlasts m (Option.map (Token.reline m.lines)) (Reader.accept kind) (Reader.accept kind) := take? _

theorem expect (kind : Token.Kind) (what : String) :
    Outlasts m (Token.reline m.lines) (Reader.expect kind what) (Reader.expect kind what) := by
  refine (accept kind).bind fun t => ?_
  cases t with
  | some t => exact .pure rfl
  | none => exact peek.bind fun t => giveUp t _

theorem sees (kind : Token.Kind) : Outlasts m id (Reader.sees kind) (Reader.sees kind) := peek.bind fun _ => .pure rfl

theorem unlessSees {kind : Token.Kind} {a : α} {b : β} (hp : Outlasts m g p p') (hb : b = g a)
    (hk : ∀ a, Outlasts m h (k a) (k' (g a))) :
    Outlasts m h (Reader.sees kind >>= fun closed => if closed then Pure.pure a >>= k else p >>= k)
      (Reader.sees kind >>= fun closed => if closed then Pure.pure b >>= k' else p' >>= k') :=
  (sees kind).bind fun _ => .ite .rfl (Outlasts.bind (.pure hb) hk) (hp.bind hk)

theorem between {enter leave : Cursor → Cursor} (henter : ∀ c : Cursor, enter (c.moved m) = (enter c).moved m)
    (hleave : ∀ c : Cursor, leave (c.moved m) = (leave c).moved m) (hp : Outlasts m g p p') :
    Outlasts m g (Reader.between enter leave p) (Reader.between enter leave p') := by
  intro c
  unfold Reader.between
  match hpc : p (enter c) with
  | .ok a d => simp only [henter, hp.ok hpc, hleave]
  | .error .reported d => simp only [henter, hp.reported hpc, hleave]
  | .error .stuck d => trivial

theorem inLoop (hp : Outlasts m g p p') : Outlasts m g (Reader.inLoop p) (Reader.inLoop p') :=
  hp.between (fun c => c.enterLoop_moved m) fun c => c.leaveLoop_moved m

theorem inFunction (hp : Outlasts m g p p') : Outlasts m g (Reader.inFunction p) (Reader.inFunction p') :=
  hp.between (fun _ => rfl) fun _ => rfl

theorem recovering (hp : Outlasts m g p p') :
    Outlasts m (Option.map g) (Reader.recovering p) (Reader.recovering p') := by
  intro c
  unfold Reader.recovering
  match hpc : p c with
  | .ok a d => simp only [hp.ok hpc, Option.map_some]
  | .error .reported d => simp only [hp.reported hpc, Cursor.recover_moved, Option.map_none]
  | .error .stuck d => trivial

end Outlasts

namespace Grammar

variable {n n' : Nat} {unary unary' conditional conditional' expression expression' operand operand' : Reader Expr}
  {statement statement' : Reader Stmt} {block block' : Reader (List Stmt)} {join : Expr → Token → Expr → Expr}

section expressions

theorem leftTail_outlasts {ops : List Token.Kind}
    (hjoin : ∀ l op r, (join l op r).reline m.lines = join (l.reline m.lines) (op.reline m.lines) (r.reline m.lines))
    (ho : Outlasts m (Expr.reline m.lines) operand operand') (hn : n ≤ n') (left : Expr) :
    Outlasts m (Expr.reline m.lines) (leftTail ops join operand n left)
      (leftTail ops join operand' n' (left.reline m.lines)) := by
  induction n generalizing n' left with
  | zero => exact .stuck
  | succ n ih =>
    obtain ⟨k, rfl⟩ := Nat.exists_eq_add_of_lt hn
    refine (Outlasts.take? _).bind fun op => ?_
    cases op with
    | none => exact .pure rfl
    | some op =>
      refine ho.bind fun right => ?_
      rw [← hjoin]
      exact ih (by omega) _

theorem leftAssoc_outlasts {ops : List Token.Kind}
    (hjoin : ∀ l op r, (join l op r).reline m.lines = join (l.reline m.lines) (op.reline m.lines) (r.reline m.lines))
    (ho : Outlasts m (Expr.reline m.lines) operand operand') (hn : n ≤ n') :
    Outlasts m (Expr.reline m.lines) (leftAssoc n ops join operand) (leftAssoc n' ops join operand') :=
  ho.bind fun first => leftTail_outlasts hjoin ho hn first

theorem equality_outlasts (hu : Outlasts m (Expr.reline m.lines) unary unary') (hn : n ≤ n') :
    Outlasts m (Expr.reline m.lines) (equality n unary) (equality n' unary') := by
  unfold equality
  induction binaryLevels with
  | nil => exact hu
  | cons ops levels ih => exact leftAssoc_outlasts (fun _ _ _ => rfl) ih hn

theorem conditionalTail_outlasts {equality equality' : Reader Expr}
    (he : Outlasts m (Expr.reline m.lines) equality equality')
    (hc : Outlasts m (Expr.reline m.lines) conditional conditional') (line : Int) (hn : n ≤ n') (selector : Expr) :
    Outlasts m (Expr.reline m.lines) (conditionalTail equality conditional line n selector)
      (conditionalTail equality' conditional' (m.lines line) n' (selector.reline m.lines)) := by
  induction n generalizing n' selector with
  | zero => exact .stuck
  | succ n ih =>
    obtain ⟨k, rfl⟩ := Nat.exists_eq_add_of_lt hn
    refine (Outlasts.accept _).bind fun t => ?_
    cases t with
    | none => exact .pure rfl
    | some t =>
      refine hc.bind fun yes => (Outlasts.expect _ _).bind fun _ => he.bind fun no => ?_
      exact ih (by omega) (.ternary selector yes no line)

theorem conditional_outlasts (hu : Outlasts m (Expr.reline m.lines) unary unary')
    (hc : Outlasts m (Expr.reline m.lines) conditional conditional') (hn : n ≤ n') :
    Outlasts m (Expr.reline m.lines) (Grammar.conditional n unary conditional)
      (Grammar.conditional n' unary' conditional') :=
  (equality_outlasts hu hn).bind fun selector => Outlasts.previous.bind fun last =>
    conditionalTail_outlasts (equality_outlasts hu hn) hc last.line hn selector

theorem disjunction_outlasts (hc : Outlasts m (Expr.reline m.lines) conditional conditional') (hn : n ≤ n') :
    Outlasts m (Expr.reline m.lines) (disjunction n conditional) (disjunction n' conditional') :=
  leftAssoc_outlasts (fun _ _ _ => rfl) (leftAssoc_outlasts (fun _ _ _ => rfl) hc hn) hn

theorem assignment_outlasts (hc : Outlasts m (Expr.reline m.lines) conditional conditional')
    (he : Outlasts m (Expr.reline m.lines) expression expression') (hn : n ≤ n') :
    Outlasts m (Expr.reline m.lines) (assignment n conditional expression)
      (assignment n' conditional' expression') := by
  refine (disjunction_outlasts hc hn).bind fun target => (Outlasts.accept _).bind fun equals => ?_
  cases equals with
  | none => exact .pure rfl
  | some equals =>
    refine he.bind fun value => ?_
    cases target with
    | ref | property => exact .pure rfl
    | _ => exact (Outlasts.report equals _).bind fun _ => .pure rfl

theorem commaList_outlasts {g : α → α} {item item' : Reader α} (hi : Outlasts m g item item') (limit : Nat)
    (what : String) (hn : n ≤ n') (count : Nat) :
    Outlasts m (List.map g) (commaList item limit what n count) (commaList item' limit what n' count) := by
  induction n generalizing n' count with
  | zero => exact .stuck
  | succ n ih =>
    obtain ⟨k, rfl⟩ := Nat.exists_eq_add_of_lt hn
    refine .ite .rfl (Outlasts.peek.bind fun t => (Outlasts.report t _).bind fun _ => ?_) ?_
    -- The items are read in the same way, too many or not.
    all_goals
      refine hi.bind fun first => (Outlasts.accept _).bind fun comma => ?_
      cases comma with
      | none => exact .pure rfl
      | some _ => exact (ih (by omega) (count + 1)).bind fun _ => .pure rfl

theorem listUntil_outlasts {g : α → α} {item item' : Reader α} (hi : Outlasts m g item item') (closing : Token.Kind)
    (limit : Nat) (what : String) (hn : n ≤ n') :
    Outlasts m (List.map g) (listUntil n closing item limit what) (listUntil n' closing item' limit what) :=
  (Outlasts.sees closing).bind fun _ => .ite .rfl (.pure rfl) (commaList_outlasts hi limit what hn 0)

theorem callTail_outlasts (he : Outlasts m (Expr.reline m.lines) expression expression') (hn : n ≤ n') (e : Expr) :
    Outlasts m (Expr.reline m.lines) (callTail expression n e) (callTail expression' n' (e.reline m.lines)) := by
  induction n generalizing n' e with
  | zero => exact .stuck
  | succ n ih =>
    obtain ⟨k, rfl⟩ := Nat.exists_eq_add_of_lt hn
    refine (Outlasts.take? _).bind fun t => ?_
    cases t with
    | none => exact .pure rfl
    | some t =>
      refine .ite .rfl ?_ ((Outlasts.expect _ _).bind fun name => ih (by omega) (.property e name))
      refine (listUntil_outlasts he _ _ _ (by omega)).bind fun arguments => (Outlasts.expect _ _).bind fun paren => ?_
      have hcall := ih (by omega : n ≤ n + k) (.call e paren arguments)
      rw [Expr.reline, relineExprs_eq] at hcall
      exact hcall

theorem lambda_outlasts (hb : Outlasts m (List.map (Stmt.reline m.lines)) block block') (hn : n ≤ n')
    (what : String) : Outlasts m (Lambda.reline m.lines) (lambda n block what) (lambda n' block' what) := by
  refine .inFunction ((Outlasts.expect _ _).bind fun _ => ?_)
  refine (listUntil_outlasts (Outlasts.expect _ _) _ _ _ hn).bind fun params => (Outlasts.expect _ _).bind fun _ => ?_
  refine (Outlasts.expect _ _).bind fun _ => hb.bind fun body => .pure ?_
  rw [Lambda.reline, relineStmts_eq]

theorem primary_outlasts (he : Outlasts m (Expr.reline m.lines) expression expression')
    (hb : Outlasts m (List.map (Stmt.reline m.lines)) block block') (hn : n ≤ n') :
    Outlasts m (Expr.reline m.lines) (primary n expression block) (primary n' expression' block') := by
  refine (Outlasts.take? _).bind fun t => ?_
  cases t with
  | none => exact Outlasts.peek.bind fun t => Outlasts.giveUp t _
  | some t =>
    simp only [Option.map_some, Token.kind_reline, Token.literal_reline]
    split
    case h_6 => exact (lambda_outlasts hb hn _).bind fun _ => .pure rfl
    case h_7 =>
      refine (listUntil_outlasts he _ _ _ hn).bind fun es => (Outlasts.expect _ _).bind fun _ => .pure ?_
      rw [Expr.reline, relineExprs_eq]
    case h_8 => exact he.bind fun inner => (Outlasts.expect _ _).bind fun _ => .pure rfl
    all_goals exact .pure rfl

theorem unary_outlasts (hu : Outlasts m (Expr.reline m.lines) unary unary')
    (he : Outlasts m (Expr.reline m.lines) expression expression')
    (hb : Outlasts m (List.map (Stmt.reline m.lines)) block block') (hn : n ≤ n') :
    Outlasts m (Expr.reline m.lines) (Grammar.unary n unary expression block)
      (Grammar.unary n' unary' expression' block') := by
  refine (Outlasts.take? _).bind fun op => ?_
  cases op with
  | some op => exact hu.bind fun _ => .pure rfl
  | none => exact (primary_outlasts he hb hn).bind fun e => callTail_outlasts he hn e

end expressions

section statements

variable (he : Outlasts m (Expr.reline m.lines) expression expression')

include he

theorem clause_outlasts :
    Outlasts m (Option.map (Expr.reline m.lines)) (some <$> expression) (some <$> expression') :=
  he.map fun _ => rfl

theorem expressionStmt_outlasts :
    Outlasts m (Stmt.reline m.lines) (expressionStmt expression) (expressionStmt expression') :=
  he.bind fun _ => (Outlasts.expect _ _).bind fun _ => .pure rfl

theorem varDecl_outlasts : Outlasts m (Stmt.reline m.lines) (varDecl expression) (varDecl expression') := by
  refine (Outlasts.expect _ _).bind fun name => (Outlasts.accept _).bind fun equal => ?_
  have hrest : ∀ initial : Option Expr, Outlasts m (Stmt.reline m.lines)
      (do let _ ← Reader.expect .semicolon "';' after variable declaration"; pure (.varDecl name initial))
      (do
        let _ ← Reader.expect .semicolon "';' after variable declaration"
        pure (.varDecl (name.reline m.lines) (initial.map (Expr.reline m.lines)))) :=
    fun initial => (Outlasts.expect _ _).bind fun _ => .pure (by cases initial <;> rfl)
  cases equal with
  | none => exact Outlasts.bind (g := Option.map (Expr.reline m.lines)) (.pure rfl) hrest
  | some _ => exact (clause_outlasts he).bind hrest

theorem whileStmt_outlasts (hs : Outlasts m (Stmt.reline m.lines) statement statement') :
    Outlasts m (Stmt.reline m.lines) (whileStmt expression statement) (whileStmt expression' statement') :=
  (Outlasts.expect _ _).bind fun _ => he.bind fun _ => (Outlasts.expect _ _).bind fun _ =>
    hs.inLoop.bind fun _ => .pure rfl

theorem forInit_outlasts :
    Outlasts m (Option.map (Stmt.reline m.lines)) (forInit expression) (forInit expression') := by
  refine (Outlasts.take? _).bind fun t => ?_
  cases t with
  | none => exact (expressionStmt_outlasts he).map fun _ => rfl
  | some t => exact .ite .rfl (.pure rfl) ((varDecl_outlasts he).map fun _ => rfl)

theorem forStmt_outlasts (hs : Outlasts m (Stmt.reline m.lines) statement statement') :
    Outlasts m (Stmt.reline m.lines) (forStmt expression statement) (forStmt expression' statement') := by
  refine (Outlasts.expect _ _).bind fun _ => (forInit_outlasts he).bind fun first => ?_
  refine Outlasts.unlessSees he rfl fun condition => (Outlasts.expect _ _).bind fun _ => ?_
  refine Outlasts.unlessSees (clause_outlasts he) rfl fun step => (Outlasts.expect _ _).bind fun _ => ?_
  refine hs.inLoop.bind fun body => ?_
  cases first <;> cases step <;> exact .pure rfl

theorem ifStmt_outlasts (hs : Outlasts m (Stmt.reline m.lines) statement statement') :
    Outlasts m (Stmt.reline m.lines) (ifStmt expression statement) (ifStmt expression' statement') := by
  refine (Outlasts.expect _ _).bind fun _ => he.bind fun condition => (Outlasts.expect _ _).bind fun _ => ?_
  refine hs.bind fun yes => (Outlasts.accept _).bind fun other => ?_
  have hrest : ∀ no : Option Stmt, Outlasts m (Stmt.reline m.lines) (pure (.ifThen condition yes no))
      (pure (.ifThen (condition.reline m.lines) (yes.reline m.lines) (no.map (Stmt.reline m.lines)))) :=
    fun no => .pure (by cases no <;> rfl)
  cases other with
  | none => exact Outlasts.bind (g := Option.map (Stmt.reline m.lines)) (.pure rfl) hrest
  | some _ => exact Outlasts.bind (g := Option.map (Stmt.reline m.lines)) (hs.map fun _ => rfl) hrest

theorem printStmt_outlasts : Outlasts m (Stmt.reline m.lines) (printStmt expression) (printStmt expression') :=
  he.bind fun _ => (Outlasts.expect _ _).bind fun _ => .pure rfl

theorem returnStmt_outlasts (keyword : Token) : Outlasts m (Stmt.reline m.lines) (returnStmt keyword expression)
    (returnStmt (keyword.reline m.lines) expression') := by
  refine Outlasts.unlessSees (clause_outlasts he) rfl fun value => (Outlasts.expect _ _).bind fun _ => ?_
  cases value <;> exact .pure rfl

omit he in
theorem jump_outlasts (keyword : Token) {node : Token → Stmt}
    (hnode : ∀ t, node (t.reline m.lines) = (node t).reline m.lines) :
    Outlasts m (Stmt.reline m.lines) (jump keyword node) (jump (keyword.reline m.lines) node) := fun c =>
  Outlasts.ite (b := c.inLoop = true) (g := Stmt.reline m.lines) .rfl
    ((Outlasts.expect _ _).bind fun _ => .pure (hnode keyword)) (.giveUp keyword _) c

theorem statement_outlasts (hs : Outlasts m (Stmt.reline m.lines) statement statement')
    (hb : Outlasts m (List.map (Stmt.reline m.lines)) block block') :
    Outlasts m (Stmt.reline m.lines) (Grammar.statement expression statement block)
      (Grammar.statement expression' statement' block') := by
  refine (Outlasts.take? _).bind fun t => ?_
  cases t with
  | none => exact expressionStmt_outlasts he
  | some t =>
    simp only [Option.map_some, Token.kind_reline]
    split
    · exact jump_outlasts t fun _ => rfl
    · exact jump_outlasts t fun _ => rfl
    · exact forStmt_outlasts he hs
    · exact ifStmt_outlasts he hs
    · exact printStmt_outlasts he
    · exact returnStmt_outlasts he t
    · exact whileStmt_outlasts he hs
    · refine hb.bind fun ss => .pure ?_
      rw [Stmt.reline, relineStmts_eq]

end statements

section declarations

variable (hb : Outlasts m (List.map (Stmt.reline m.lines)) block block')

theorem atEnd_outlasts : Outlasts m id atEnd atEnd := Outlasts.peek.bind fun _ => .pure rfl

include hb

theorem function_outlasts (hn : n ≤ n') (what : String) :
    Outlasts m (fun x => (x.1.reline m.lines, x.2.reline m.lines)) (function n block what)
      (function n' block' what) :=
  (Outlasts.expect _ _).bind fun _ => (lambda_outlasts hb hn what).bind fun _ => .pure rfl

theorem methods_outlasts (hn : n ≤ n') {l l' : Nat} (hl : l ≤ l') :
    Outlasts m (List.map (Method.reline m.lines)) (methods n block l) (methods n' block' l') := by
  induction l generalizing l' with
  | zero => exact .stuck
  | succ l ih =>
    obtain ⟨k, rfl⟩ := Nat.exists_eq_add_of_lt hl
    refine (Outlasts.sees _).bind fun _ => atEnd_outlasts.bind fun _ => .ite .rfl (.pure rfl) ?_
    exact (function_outlasts hb hn _).bind fun _ => (ih (by omega)).bind fun _ => .pure rfl

theorem classDecl_outlasts (hn : n ≤ n') :
    Outlasts m (Stmt.reline m.lines) (classDecl n block) (classDecl n' block') := by
  refine (Outlasts.expect _ _).bind fun name => (Outlasts.expect _ _).bind fun _ => ?_
  refine (methods_outlasts hb hn hn).bind fun ms => (Outlasts.expect _ _).bind fun _ => .pure ?_
  rw [Stmt.reline, relineMethods_eq]

omit hb in
theorem seesNamedFunction_outlasts : Outlasts m id seesNamedFunction seesNamedFunction := by
  rintro ⟨before, _ | ⟨first, _ | ⟨second, rest⟩⟩, loops, reports⟩ <;> rfl

theorem attempt_outlasts (hn : n ≤ n') (he : Outlasts m (Expr.reline m.lines) expression expression')
    (hs : Outlasts m (Stmt.reline m.lines) statement statement') :
    Outlasts m (Stmt.reline m.lines) (attempt n expression statement block)
      (attempt n' expression' statement' block') := by
  refine (Outlasts.accept _).bind fun word => .ite (by simp) (classDecl_outlasts hb hn) ?_
  refine seesNamedFunction_outlasts.bind fun _ => .ite .rfl ?_ ?_
  · exact (Outlasts.accept _).bind fun _ => (function_outlasts hb hn _).bind fun _ => .pure rfl
  · exact (Outlasts.accept _).bind fun _ => .ite (by simp) (varDecl_outlasts he) hs

theorem declaration_outlasts (hn : n ≤ n') (he : Outlasts m (Expr.reline m.lines) expression expression')
    (hs : Outlasts m (Stmt.reline m.lines) statement statement') :
    Outlasts m (Option.map (Stmt.reline m.lines)) (Grammar.declaration n expression statement block)
      (Grammar.declaration n' expression' statement' block') :=
  .recovering (attempt_outlasts hb hn he hs)

omit hb in
theorem declarations_outlasts (closing : Token.Kind) {declaration declaration' : Reader (Option Stmt)}
    (hd : Outlasts m (Option.map (Stmt.reline m.lines)) declaration declaration') (hn : n ≤ n') :
    Outlasts m (List.map (Stmt.reline m.lines)) (declarations closing declaration n)
      (declarations closing declaration' n') := by
  induction n generalizing n' with
  | zero => exact .stuck
  | succ n ih =>
    obtain ⟨k, rfl⟩ := Nat.exists_eq_add_of_lt hn
    refine (Outlasts.sees _).bind fun _ => atEnd_outlasts.bind fun _ => .ite .rfl (.pure rfl) ?_
    refine hd.bind fun first => (ih (by omega)).bind fun others => .pure ?_
    cases first <;> simp

end declarations

end Grammar

namespace Reader

/-- The readers that reach themselves again, at two bounds of their depth. -/
structure Deeper (m : Cursor.Move) (n n' : Nat) : Prop where
  expression : Outlasts m (Expr.reline m.lines) (expression n) (expression n')
  conditional : Outlasts m (Expr.reline m.lines) (conditional n) (conditional n')
  unary : Outlasts m (Expr.reline m.lines) (unary n) (unary n')
  statement : Outlasts m (Stmt.reline m.lines) (statement n) (statement n')
  declaration : Outlasts m (Option.map (Stmt.reline m.lines)) (declaration n) (declaration n')
  block : Outlasts m (List.map (Stmt.reline m.lines)) (block n) (block n')

theorem deeper (m : Cursor.Move) {n n' : Nat} (h : n ≤ n') : Deeper m n n' := by
  induction n generalizing n' with
  | zero =>
    constructor <;> simp only [expression, conditional, unary, statement, declaration, block] <;> exact .stuck
  | succ n ih =>
    obtain ⟨k, rfl⟩ := Nat.exists_eq_add_of_lt h
    have hn : n ≤ n + k := Nat.le_add_right n k
    constructor
    · simp only [expression]
      exact Grammar.assignment_outlasts (ih hn).conditional (ih hn).expression hn
    · simp only [conditional]
      exact Grammar.conditional_outlasts (ih hn).unary (ih hn).conditional hn
    · simp only [unary]
      exact Grammar.unary_outlasts (ih hn).unary (ih hn).expression (ih hn).block hn
    · simp only [statement]
      exact Grammar.statement_outlasts (ih hn).expression (ih hn).statement (ih hn).block
    · simp only [declaration]
      exact Grammar.declaration_outlasts (ih hn).block hn (ih hn).expression (ih hn).statement
    · simp only [block]
      exact (Grammar.declarations_outlasts _ (ih hn).declaration hn).bind fun _ =>
        (Outlasts.expect _ _).bind fun _ => .pure rfl

theorem program_outlasts (m : Cursor.Move) (n : Nat) :
    Outlasts m (List.map (Stmt.reline m.lines)) (program n) (program n) :=
  Grammar.declarations_outlasts _ (deeper m (Nat.le_refl n)).declaration (Nat.le_refl n)

end Reader

end readers

/-- Tokens with other lines read as the same program, with those lines. -/
theorem parse_reline (f : Int → Int) {ts : List Token} {ss : List Stmt} {reports : List Report}
    (h : parse ts = (some ss, reports)) :
    parse (ts.map (Token.reline f)) = (some (ss.map (Stmt.reline f)), reports.map (Report.reline f)) := by
  unfold parse at h ⊢
  cases hread : Reader.program (Reader.depthPerToken * (ts.length + 1)) (Cursor.ofTokens ts) with
  | ok read c =>
    rw [hread] at h
    obtain ⟨rfl, rfl⟩ : read = ss ∧ c.reports.reverse = reports := by simpa using h
    have hmoved := (Reader.program_outlasts { lines := f } _).ok hread
    have hstart : (Cursor.ofTokens ts).moved { lines := f } = Cursor.ofTokens (ts.map (Token.reline f)) := rfl
    rw [hstart] at hmoved
    simp [hmoved, Cursor.moved]
  | error e c =>
    rw [hread] at h
    cases h

end LoxLang
