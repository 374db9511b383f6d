import LoxLang.Eval
import LoxLang.Proofs.Nesting.Runs

namespace LoxLang

def Evaluator.within (n : Nat) : Evaluator := ⟨.byDistance, n, evaluate .byDistance n, execute .byDistance n⟩

namespace Pairing

variable {P : Pairing} {side : Side} {w : List Nat} {Γ : List Layer}

structure Lockstep (P : Pairing) (side : Side) (m m' : Evaluator) : Prop where
  addressing : m.addressing = .byDistance
  addressing' : m'.addressing = .byDistance
  limit : Enough side m.limit m'.limit
  eval : ∀ {w Γ e e'}, P.pairs Γ (.expr e) (.expr e') → P.Runs side w Γ P.Values (m.eval e) (m'.eval e')
  exec : ∀ {w Γ t t'}, P.pairs Γ (.stmt t) (.stmt t') → P.Runs side w Γ P.Outcomes (m.exec t) (m'.exec t')

theorem bindTo_runs {r r' : Routine} {self self' : Value} (hr : P.Routines w [.shared] r r')
    (hself : P.Values w self self') :
    P.Runs side w Γ (fun v => P.Routines v []) (r.bindTo self) (r'.bindTo self') := by
  obtain ⟨Γ', hc, hp, -⟩ := hr.paired
  apply (Runs.pushFrame hc (Bindings.Rel.single rfl trivial hself)).bind
  intro v c c' _ hc
  exact .pure fun x hx => ⟨hr.name, hr.isInitializer, _, hc.mono hx, hp, by simp⟩

theorem body_paired {f f' : Lambda} (hp : P.pairs Γ (.lambda f) (.lambda f')) :
    List.Forall₂ (fun t t' => P.pairs (.shared :: Γ) (.stmt t) (.stmt t')) f.body f'.body := by
  obtain hspecial | hlikened := P.step hp
  · obtain ⟨_, _, h, -⟩ := P.statements hspecial
    cases h
  · have hparts := hlikened.parts
    simpa only [Node.inner, Node.parts, Node.children, Context.sequence_snd, List.forall₂_map_left_iff,
      List.forall₂_map_right_iff] using hparts

namespace Lockstep

variable {m m' : Evaluator} (h : P.Lockstep side m m')

include h

theorem evalAll_runs {es es' : List Expr} (hes : List.Forall₂ (fun e e' => P.pairs Γ (.expr e) (.expr e')) es es') :
    P.Runs side w Γ (fun v => List.Forall₂ (P.Values v)) (m.evalAll es) (m'.evalAll es') := by
  induction hes generalizing w with
  | nil => exact .pure fun _ _ => .nil
  | cons he _ ih =>
    apply (h.eval he).bind
    intro v a a' hv ha
    apply ih.bind
    intro x as as' hx has
    exact .pure fun y hy => .cons (ha.mono (hx.trans hy)) (has.imp fun _ _ h => h.mono hy)

theorem sequence_runs {ss ss' : List Stmt} (hss : List.Forall₂ (fun t t' => P.pairs Γ (.stmt t) (.stmt t')) ss ss') :
    P.Runs side w Γ P.Outcomes (m.sequence ss) (m'.sequence ss') := by
  induction hss generalizing w with
  | nil => exact .pure fun _ _ => .normal
  | cons ht _ ih =>
    apply (h.exec ht).bind
    intro v o o' hv ho
    cases ho with
    | normal => exact ih
    | returned ha => exact .pure fun _ hx => .returned (ha.mono hx)
    | broken => exact .pure fun _ _ => .broken
    | continued => exact .pure fun _ _ => .continued

theorem block_runs {Γ' : List Layer} {outer outer' : Chain} {b b' : Bindings Value} {ss ss' : List Stmt}
    (houter : Chains w Γ' outer outer') (hb : P.Contents w b b')
    (hss : List.Forall₂ (fun t t' => P.pairs (.shared :: Γ') (.stmt t) (.stmt t')) ss ss') :
    P.Runs side w Γ P.Outcomes (m.block b outer ss) (m'.block b' outer' ss') := by
  apply (Runs.pushFrame houter hb).bind
  intro v c c' _ hc
  exact (h.sequence_runs hss).within hc

theorem invoke_runs {r r' : Routine} {as as' : List Value} (hr : P.Routines w [] r r')
    (has : List.Forall₂ (P.Values w) as as') :
    P.Runs side w Γ P.Values (m.invoke r as) (m'.invoke r' as') := by
  obtain ⟨Γ', hc, hp, -⟩ := hr.paired
  have hbody := body_paired hp
  unfold Evaluator.invoke
  rw [hr.params_eq]
  apply (h.block_runs hc (contents_bindAll _ has) hbody).bind
  intro v o o' hv ho
  apply Runs.get
  intro x s s' hx hs _
  exact .pure fun y hy => (result_related hs (hr.mono (hv.trans hx)) (ho.mono hx).value).mono hy

theorem instantiate_runs {c c' : Class} {as as' : List Value} (hc : P.Classes w c c')
    (has : List.Forall₂ (P.Values w) as as') :
    P.Runs side w Γ P.Values (m.instantiate c as) (m'.instantiate c' as') := by
  apply (Runs.newObject hc).bind
  intro v self self' hv hself
  have hinit := hc.initializer?
  generalize c.initializer? = r at hinit ⊢
  generalize c'.initializer? = r' at hinit ⊢
  cases hinit with
  | none => exact .value hself
  | some hr =>
    apply (bindTo_runs (hr.mono hv) hself).bind
    intro x q q' hx hq
    apply (h.invoke_runs hq (has.imp fun _ _ ha => ha.mono (hv.trans hx))).bind
    intro y _ _ hy _
    exact .value (hself.mono (hx.trans hy))

theorem apply_runs {f f' : Value} {as as' : List Value} (line : Int) (hf : P.Values w f f')
    (has : List.Forall₂ (P.Values w) as as') :
    P.Runs side w Γ P.Values (m.apply f as line) (m'.apply f' as' line) := by
  have hchecked : ∀ (n : Nat) (p p' : Exec Value), (as.length = n → P.Runs side w Γ P.Values p p') →
      P.Runs side w Γ P.Values
        (if as.length = n then Exec.blaming line p else Exec.fault (.wrongCount n as.length) line)
        (if as'.length = n then Exec.blaming line p' else Exec.fault (.wrongCount n as'.length) line) := by
    intro n p p' hp
    rw [← has.length_eq]
    by_cases hn : as.length = n
    · simp only [hn, if_true]
      exact (hp hn).blaming line
    · simp only [hn, if_false]
      exact .fault _ _
  unfold Evaluator.apply
  cases hf with
  | native n =>
    exact hchecked _ _ _ fun hn => .of_acts fun v hv =>
      Acts.native (Values.lookalike P v) (has.imp fun _ _ ha => ha.mono hv) n hn
  | function id hr =>
    simp only [hr.arity_eq]
    exact hchecked _ _ _ fun _ => h.invoke_runs hr has
  | classDef id hc =>
    simp only [hc.arity_eq]
    exact hchecked _ _ _ fun _ => h.instantiate_runs hc has
  | _ => exact .fault _ _

omit h in
theorem property_runs {a a' : Value} (name : Token) (ha : P.Values w a a') :
    P.Runs side w Γ P.Values (Evaluator.property a name) (Evaluator.property a' name) := by
  cases ha with
  | @object id c c' hc =>
    apply Runs.get
    intro v s s' hv hs _
    have hfield := (hs.fields id).find? Function.injective_id name.lexeme
    have hmethod := hc.methods.find? Function.injective_id name.lexeme
    simp only [id_eq] at hfield hmethod
    generalize (s.fields id).find? name.lexeme = x at hfield ⊢
    generalize (s'.fields id).find? name.lexeme = x' at hfield ⊢
    generalize c.methods.find? name.lexeme = r at hmethod ⊢
    generalize c'.methods.find? name.lexeme = r' at hmethod ⊢
    cases hfield with
    | some hx => exact .value hx
    | none =>
      cases hmethod with
      | none => exact .fault _ _
      | some hr =>
        apply (bindTo_runs (hr.mono hv) (.object id (hc.mono hv))).bind
        intro x q q' _ hq
        apply Runs.freshId.bind
        rintro y _ i hy rfl
        exact .value (.function i (hq.mono hy))
  | _ => exact .fault _ _

theorem read_runs (name : Token) (hops : Option Nat) :
    P.Runs side w Γ P.Values (m.addressing.read name hops) (m'.addressing.read name (hops.map (past Γ))) := by
  rw [h.addressing, h.addressing']
  exact .read name hops

theorem evalRule_runs {e e' : Expr} (hp : Likened P.pairs Γ (.expr e) (.expr e')) :
    P.Runs side w Γ P.Values (m.evalRule e) (m'.evalRule e') := by
  have hparts := hp.parts
  have hhops := hp.hops
  cases hp.alike <;> simp only [Node.inner, Node.parts, Node.children, List.map_cons, List.map_nil, List.map_map,
    Function.comp_def, List.forall₂_cons, List.forall₂_nil_right_iff, and_true, List.forall₂_map_left_iff,
    List.forall₂_map_right_iff] at hparts
  case literal l => exact .value ((Values.lookalike P w).ofLiteral l)
  case group => exact h.eval hparts
  case ref name hops hops' =>
    obtain rfl : hops' = hops.map (past Γ) := hhops
    exact h.read_runs name hops
  case self keyword hops hops' =>
    obtain rfl : hops' = hops.map (past Γ) := hhops
    exact h.read_runs keyword hops
  case assign name hops hops' e e' =>
    obtain rfl : hops' = hops.map (past Γ) := hhops
    apply (h.eval hparts).bind
    intro v u u' _ hu
    simp only [h.addressing, h.addressing']
    apply (Runs.write name hops hu).bind
    intro x _ _ hx _
    exact .value (hu.mono hx)
  case unary op e e' =>
    exact (h.eval hparts).bind fun v a a' _ ha => .of_acts fun x hx =>
      Acts.unary (Values.lookalike P x) rfl (ha.mono hx)
  case binary op l r l' r' =>
    apply (h.eval hparts.1).bind
    intro v a a' _ ha
    apply (h.eval hparts.2).bind
    intro x b b' hx hb
    exact .of_acts fun y hy =>
      Acts.binary (Values.lookalike P y) rfl (ha.mono (hx.trans hy)) (hb.mono hy)
  case logical op l r l' r' =>
    apply (h.eval hparts.1).bind
    intro v a a' _ ha
    rw [ha.alike.truthy_eq]
    by_cases hop : a.truthy = decide (op.kind = .kwOr)
    · simp only [hop, if_true]
      exact .value ha
    · simp only [hop, if_false]
      exact h.eval hparts.2
  case ternary line c y n c' y' n' =>
    apply (h.eval hparts.1).bind
    intro v a a' _ ha
    have hbad : P.Runs side v Γ P.Values (do Exec.fault (.badSelector (← Exec.text a)) line)
        (do Exec.fault (.badSelector (← Exec.text a')) line) := by
      apply (Runs.text ha).bind
      rintro x _ t _ rfl
      exact .fault _ _
    cases ha with
    | bool b =>
      cases b with
      | true => exact h.eval hparts.2.1
      | false => exact h.eval hparts.2.2
    | _ => exact hbad
  case call paren f f' es es' =>
    apply (h.eval hparts.1).bind
    intro v f f' _ hf
    apply (h.evalAll_runs hparts.2).bind
    intro x as as' hx has
    exact h.apply_runs paren.line (hf.mono hx) has
  case property name o o' => exact (h.eval hparts).bind fun _ _ _ _ hu => property_runs name hu
  case setProperty name o v o' v' =>
    apply (h.eval hparts.1).bind
    intro v a a' _ ha
    cases ha with
    | object id hc =>
      apply (h.eval hparts.2).bind
      intro x u u' _ hu
      apply (Runs.setField id name.lexeme hu).bind
      intro y _ _ hy _
      exact .value (hu.mono hy)
    | _ => exact .fault _ _
  case function f f' =>
    apply Runs.freshId.bind
    rintro v _ i _ rfl
    apply Runs.get
    intro x s s' _ hs hc
    exact .value (.function i ⟨rfl, rfl, Γ, hc, hparts, by simp⟩)
  case list es es' =>
    apply (h.evalAll_runs hparts).bind
    intro v as as' _ has
    exact .newList has
  case ofStmt t t' => exact (h.exec hparts).bind fun _ _ _ _ _ => .value (.bool true)
  case stub s => exact .throw _

omit h in
theorem methods_related {chain chain' : Chain} {ms ms' : List Method} (hchain : Chains w Γ chain chain')
    (hnames : ms'.map Method.name = ms.map Method.name)
    (hms : List.Forall₂ (fun m m' => P.pairs (.shared :: Γ) (.lambda m.definition) (.lambda m'.definition)) ms ms') :
    Bindings.Rel id (fun _ => True) (P.Routines w [.shared]) (Evaluator.methodTable chain ms)
      (Evaluator.methodTable chain' ms') := by
  suffices hall : ∀ b b', Bindings.Rel id (fun _ => True) (P.Routines w [.shared]) b b' →
      Bindings.Rel id (fun _ => True) (P.Routines w [.shared]) (ms.foldl _ b) (ms'.foldl _ b') from
    hall _ _ Bindings.Rel.empty
  induction hms with
  | nil => exact fun b b' hb => hb
  | cons hm _ ih =>
    intro b b' hb
    simp only [List.map_cons, List.cons.injEq] at hnames
    apply ih hnames.2
    simp only [hnames.1]
    exact hb.put Function.injective_id trivial ⟨rfl, rfl, Γ, hchain, hm, by simp⟩

theorem test_runs {c c' : Expr} (hc : P.pairs Γ (.expr c) (.expr c')) :
    P.Runs side w Γ (fun _ x x' => x' = x) (do return (← m.eval c).truthy) (do return (← m'.eval c').truthy) :=
  (h.eval hc).bind fun _ _ _ _ ha => .pure fun _ _ => ha.alike.truthy_eq

theorem execRule_runs {t t' : Stmt} (hp : Likened P.pairs Γ (.stmt t) (.stmt t')) :
    P.Runs side w Γ P.Outcomes (m.execRule t) (m'.execRule t') := by
  have hparts := hp.parts
  have hΓ : ∀ name, t.declares = [name] → Γ.head? ≠ some .further := by
    intro name ht hhead
    rw [hp.declares t rfl hhead] at ht
    cases ht
  cases hp.alike <;> simp only [Node.inner, Node.parts, Node.children, List.map_cons, List.map_nil, List.map_map,
    Function.comp_def, List.forall₂_cons, List.forall₂_nil_right_iff, and_true, List.forall₂_map_left_iff,
    List.forall₂_map_right_iff, Context.sequence_snd] at hparts
  case expression => exact (h.eval hparts).bind fun _ _ _ _ _ => .pure fun _ _ => .normal
  case print e e' =>
    apply (h.eval hparts).bind
    intro v a a' _ ha
    apply (Runs.text ha).bind
    rintro x _ u _ rfl
    exact (Runs.print u).bind fun _ _ _ _ _ => .pure fun _ _ => .normal
  case bareDecl name => exact (Runs.define (hΓ _ rfl) _ .nil).bind fun _ _ _ _ _ => .pure fun _ _ => .normal
  case varDecl name e e' =>
    apply (h.eval hparts).bind
    intro v a a' _ ha
    exact (Runs.define (hΓ _ rfl) _ ha).bind fun _ _ _ _ _ => .pure fun _ _ => .normal
  case funDecl name f f' =>
    apply Runs.freshId.bind
    rintro v _ i _ rfl
    apply Runs.get
    intro x s s' _ hs hc
    have hr : P.Values x (.function i ⟨name.lexeme, f, s.chain, false⟩) (.function i ⟨name.lexeme, f', s'.chain, false⟩) :=
      .function i ⟨rfl, rfl, Γ, hc, hparts, by simp⟩
    exact (Runs.define (hΓ _ rfl) _ hr).bind fun _ _ _ _ _ => .pure fun _ _ => .normal
  case classDecl name ms ms' hnames =>
    apply (Runs.define (hΓ _ rfl) _ .nil).bind
    intro v _ _ _ _
    apply Runs.freshId.bind
    rintro x _ i _ rfl
    apply Runs.get
    intro y s s' _ hs hc
    have hclass : P.Values y (.classDef i ⟨name.lexeme, Evaluator.methodTable s.chain ms⟩)
        (.classDef i ⟨name.lexeme, Evaluator.methodTable s'.chain ms'⟩) :=
      .classDef i ⟨rfl, methods_related hc hnames hparts⟩
    exact (Runs.define (hΓ _ rfl) _ hclass).bind fun _ _ _ _ _ => .pure fun _ _ => .normal
  case block ss ss' =>
    apply Runs.get
    intro v s s' _ hs hc
    exact h.block_runs hc Bindings.Rel.empty hparts
  case ifThen c c' y y' =>
    apply (h.eval hparts.1).bind
    intro v a a' _ ha
    rw [ha.alike.truthy_eq]
    cases a.truthy with
    | true => exact h.exec hparts.2
    | false => exact .pure fun _ _ => .normal
  case ifElse c c' y n y' n' =>
    apply (h.eval hparts.1).bind
    intro v a a' _ ha
    rw [ha.alike.truthy_eq]
    cases a.truthy with
    | true => exact h.exec hparts.2.1
    | false => exact h.exec hparts.2.2
  case whileLoop c c' b b' =>
    exact passes_runs (h.test_runs hparts.1) (h.exec hparts.2) (.pure fun _ _ => trivial) h.limit
  case forLoop c c' b s b' s' =>
    have hstep : ∀ v, P.Runs side v Γ (fun _ _ _ => True) (discard (m.exec s)) (discard (m'.exec s')) :=
      fun v => (h.exec (w := v) hparts.2.2).bind fun _ _ _ _ _ => .pure fun _ _ => trivial
    exact passes_runs (h.test_runs hparts.1) (h.exec hparts.2.1) (hstep w) h.limit
  case bareReturn keyword => exact .pure fun _ _ => .returned .nil
  case ret keyword e e' => exact (h.eval hparts).bind fun _ _ _ _ ha => .pure fun _ hv => .returned (ha.mono hv)
  case breakLoop => exact .pure fun _ _ => .broken
  case continueLoop => exact .pure fun _ _ => .continued
  case ofExpr => exact (h.eval hparts).bind fun _ _ _ _ _ => .pure fun _ _ => .normal

end Lockstep

theorem Lockstep.of_cut {n n' : Nat} (hcut : side = .first ∧ n = 0 ∨ side = .second ∧ n' = 0)
    (h : Enough side n n') : P.Lockstep side (.within n) (.within n') := by
  refine ⟨rfl, rfl, h, fun _ => ?_, fun _ => ?_⟩ <;> obtain ⟨hside, rfl⟩ | ⟨hside, rfl⟩ := hcut <;>
    simp only [Evaluator.within, evaluate, execute]
  · exact .first hside
  · exact .second hside
  · exact .first hside
  · exact .second hside

/-- Bounded runs are in lockstep if those of special statements are, given that all that runs less deep is. -/
theorem lockstep
    (hspecial : ∀ {n n' w Γ t t'}, P.pairs Γ (.stmt t) (.stmt t') → P.special (.stmt t) (.stmt t') →
      Enough side (n + 1) n' → (∀ m', Enough side n m' → P.Lockstep side (.within n) (.within m')) →
      P.Runs side w Γ P.Outcomes (execute .byDistance (n + 1) t) (execute .byDistance n' t'))
    {n n' : Nat} (h : Enough side n n') : P.Lockstep side (.within n) (.within n') := by
  induction n generalizing n' with
  | zero =>
    obtain hcut | ⟨m, m', hn, -⟩ := h.cases
    · exact .of_cut hcut h
    · cases hn
  | succ n ih =>
    obtain hcut | ⟨m, m', hn, rfl, hm⟩ := h.cases
    · exact .of_cut hcut h
    obtain rfl := Nat.succ.inj hn
    refine ⟨rfl, rfl, h, fun hp => ?_, fun hp => ?_⟩
    · simp only [Evaluator.within, evaluate]
      obtain hs | hlikened := P.step hp
      · obtain ⟨_, _, he, -⟩ := P.statements hs
        cases he
      · exact (ih hm).evalRule_runs hlikened
    · obtain hs | hlikened := P.step hp
      · exact hspecial hp hs h fun m' => ih
      · simp only [Evaluator.within, execute]
        exact (ih hm).execRule_runs hlikened

theorem runProgram_runs {n n' : Nat} (h : P.Lockstep side (.within n) (.within n')) {ss ss' : List Stmt}
    (hss : List.Forall₂ (fun t t' => P.pairs [] (.stmt t) (.stmt t')) ss ss') :
    P.Runs side w [] (fun _ _ _ => True) (runProgram .byDistance n ss) (runProgram .byDistance n' ss') := by
  induction hss generalizing w with
  | nil => exact .pure fun _ _ => trivial
  | cons ht _ ih => exact (h.exec ht).bind fun _ _ _ _ _ => ih

end Pairing

end LoxLang
