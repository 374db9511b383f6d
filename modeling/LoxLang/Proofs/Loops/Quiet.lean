import LoxLang.Proofs.Stopping
import LoxLang.Proofs.Loops.Enclosed
import LoxLang.Tree.Bind

namespace LoxLang

open Stopping Body

def Complaint.IsOutsideLoop : Complaint → Prop
  | .outsideLoop _ => True
  | _ => False

namespace Binder

variable {α β : Type}

def scopesAfter : EStateM.Result Defect Scopes α → Scopes
  | .ok _ s | .error _ s => s

/-- No report of the action is about a jump outside of a loop. -/
def Quiet (p : Binder α) : Prop :=
  ∀ s : Scopes, ∀ r ∈ (scopesAfter (p s)).reports, r.complaint.IsOutsideLoop → r ∈ s.reports

namespace Quiet

variable {p : Binder α} {k : α → Binder β}

theorem pure (a : α) : Quiet (Pure.pure a) := fun _ _ hr _ => hr

theorem throw (d : Defect) : Quiet (MonadExcept.throw d : Binder α) := fun _ _ hr _ => hr

theorem update {f : Scopes → Scopes} (h : ∀ s, (f s).reports = s.reports) : Quiet (modify f : Binder Unit) :=
  fun s _ hr _ => h s ▸ hr

theorem bind (hp : Quiet p) (hk : ∀ a, Quiet (k a)) : Quiet (p >>= k) := by
  intro s r hr hloop
  have h := hp s
  cases hs : p s with
  | ok a t =>
    rw [hs] at h
    rw [bind_ok hs] at hr
    exact h r (hk a t r hr hloop) hloop
  | error d t =>
    rw [hs] at h
    rw [bind_error hs] at hr
    exact h r hr hloop

theorem get {k : Scopes → Binder β} (hk : ∀ s, Quiet (k s)) : Quiet ((MonadState.get : Binder Scopes) >>= k) :=
  fun s => hk s s

theorem ite {c : Prop} [Decidable c] {p q : Binder α} (hp : Quiet p) (hq : Quiet q) : Quiet (if c then p else q) := by
  split
  · exact hp
  · exact hq

theorem report (t : Token) {c : Complaint} (h : ¬c.IsOutsideLoop) : Quiet (Binder.report t c) := by
  intro s r hr hloop
  obtain rfl | hr := List.mem_cons.1 hr
  · exact absurd hloop h
  · exact hr

theorem inScope (scope : Bindings Bool) (hp : Quiet p) : Quiet (Binder.inScope scope p) :=
  bind (update fun _ => rfl) fun _ => bind hp fun _ => bind (update fun _ => rfl) fun _ => pure _

theorem declare (name : Token) : Quiet (Binder.declare name) := by
  refine get fun s => ?_
  split
  · exact pure _
  · exact ite (bind (report _ id) fun _ => update fun _ => rfl) (update fun _ => rfl)

theorem define (name : Token) : Quiet (Binder.define name) := by
  refine get fun s => ?_
  split
  · exact pure _
  · exact ite (update fun _ => rfl) (throw _)

theorem locate (m : Mention) (name : Token) : Quiet (Binder.locate m name) := by
  refine get fun s => ?_
  split
  · exact pure _
  · exact bind (update fun _ => rfl) fun _ => pure _

theorem declareAll (names : List Token) : Quiet (Binder.declareAll names) := by
  induction names with
  | nil => exact pure _
  | cons name names ih => exact (declare name).bind fun _ => (define name).bind fun _ => ih

theorem checkInitial (name : Token) (e : Expr) : Quiet (Binder.checkInitial name e) := by
  unfold Binder.checkInitial
  split
  · exact get fun s => ite (report _ id) (pure _)
  · exact pure _

theorem checkReturn (role : Role) (keyword : Token) (hasValue : Bool) :
    Quiet (Binder.checkReturn role keyword hasValue) := by
  have hvalue : Quiet (if (hasValue && decide (role = .initializer)) = true then
      Binder.report keyword .initializerReturn else Pure.pure ()) := ite (report _ id) (pure _)
  exact ite (bind (report _ id) fun _ => hvalue) hvalue

theorem checkJump {inLoop : Bool} (keyword : Token) (word : String) (h : inLoop = true) :
    Quiet (Binder.checkJump inLoop keyword word) := by
  subst h
  exact pure _

end Quiet

end Binder

open Binder (Quiet)

mutual

theorem Expr.bind_quiet (bodies : List Body) : (e : Expr) → (here : Surroundings) → JumpsInside (bodies, .expr e) →
    (insideLoop bodies = true → here.inLoop = true) → Quiet (e.bind here)
  | .literal _, _, _, _ => .pure _
  | .ref name _, _, _, _ => (Quiet.locate .ref name).bind fun _ => .pure _
  | .self keyword hops, here, _, _ =>
    .ite ((Quiet.locate .self keyword).bind fun _ => .pure _) (.bind (Quiet.report _ id) fun _ => .pure _)
  | .assign name _ v, here, h, hl => by
    have hv := v.bind_quiet bodies here (h.below (by simp [Node.enclosed])) hl
    exact hv.bind fun _ => (Quiet.locate .assign name).bind fun _ => .pure _
  | .group e, here, h, hl => (e.bind_quiet bodies here (h.below (by simp [Node.enclosed])) hl).bind fun _ => .pure _
  | .unary _ e, here, h, hl => (e.bind_quiet bodies here (h.below (by simp [Node.enclosed])) hl).bind fun _ => .pure _
  | .binary l _ r, here, h, hl =>
    (l.bind_quiet bodies here (h.below (by simp [Node.enclosed])) hl).bind fun _ =>
      (r.bind_quiet bodies here (h.below (by simp [Node.enclosed])) hl).bind fun _ => .pure _
  | .logical l _ r, here, h, hl =>
    (l.bind_quiet bodies here (h.below (by simp [Node.enclosed])) hl).bind fun _ =>
      (r.bind_quiet bodies here (h.below (by simp [Node.enclosed])) hl).bind fun _ => .pure _
  | .ternary c y n _, here, h, hl =>
    (c.bind_quiet bodies here (h.below (by simp [Node.enclosed])) hl).bind fun _ =>
      (y.bind_quiet bodies here (h.below (by simp [Node.enclosed])) hl).bind fun _ =>
        (n.bind_quiet bodies here (h.below (by simp [Node.enclosed])) hl).bind fun _ => .pure _
  | .call f _ args, here, h, hl =>
    (f.bind_quiet bodies here (h.below (by simp [Node.enclosed])) hl).bind fun _ =>
      (bindExprs_quiet bodies args here (fun e he => h.below (by simp [Node.enclosed, he])) hl).bind fun _ => .pure _
  | .property o _, here, h, hl => (o.bind_quiet bodies here (h.below (by simp [Node.enclosed])) hl).bind fun _ => .pure _
  | .setProperty o _ v, here, h, hl =>
    (v.bind_quiet bodies here (h.below (by simp [Node.enclosed])) hl).bind fun _ =>
      (o.bind_quiet bodies here (h.below (by simp [Node.enclosed])) hl).bind fun _ => .pure _
  | .function f, here, h, _ => (f.bind_quiet bodies _ (h.below (by simp [Node.enclosed]))).bind fun _ => .pure _
  | .list es, here, h, hl =>
    (bindExprs_quiet bodies es here (fun e he => h.below (by simp [Node.enclosed, he])) hl).bind fun _ => .pure _
  | .ofStmt t, here, h, hl => (t.bind_quiet bodies here (h.below (by simp [Node.enclosed])) hl).bind fun _ => .pure _
  | .stub _, _, _, _ => .throw _

theorem bindExprs_quiet (bodies : List Body) : (es : List Expr) → (here : Surroundings) →
    (∀ e ∈ es, JumpsInside (bodies, .expr e)) → (insideLoop bodies = true → here.inLoop = true) →
      Quiet (bindExprs here es)
  | [], _, _, _ => .pure _
  | e :: es, here, h, hl =>
    (e.bind_quiet bodies here (h e List.mem_cons_self) hl).bind fun _ =>
      (bindExprs_quiet bodies es here (fun d hd => h d (List.mem_cons_of_mem e hd)) hl).bind fun _ => .pure _

theorem Lambda.bind_quiet (bodies : List Body) : (f : Lambda) → (here : Surroundings) →
    JumpsInside (bodies, .lambda f) → Quiet (f.bind here)
  | .mk params body, here, h =>
    .inScope _ ((Quiet.declareAll params).bind fun _ =>
      (bindStmts_quiet (.function :: bodies) body _
        (fun t ht => h.below (by simp [Node.enclosed, Lambda.body, ht])) (by simp)).bind fun _ => .pure _)

theorem Stmt.bind_quiet (bodies : List Body) : (t : Stmt) → (here : Surroundings) → JumpsInside (bodies, .stmt t) →
    (insideLoop bodies = true → here.inLoop = true) → Quiet (t.bind here)
  | .expression e, here, h, hl => (e.bind_quiet bodies here (h.below (by simp [Node.enclosed])) hl).bind fun _ => .pure _
  | .print e, here, h, hl => (e.bind_quiet bodies here (h.below (by simp [Node.enclosed])) hl).bind fun _ => .pure _
  | .varDecl name none, _, _, _ => (Quiet.declare name).bind fun _ => (Quiet.define name).bind fun _ => .pure _
  | .varDecl name (some e), here, h, hl =>
    (Quiet.declare name).bind fun _ => (Quiet.checkInitial name e).bind fun _ =>
      (e.bind_quiet bodies here (h.below (by simp [Node.enclosed])) hl).bind fun _ =>
        (Quiet.define name).bind fun _ => .pure _
  | .funDecl name f, here, h, _ =>
    (Quiet.declare name).bind fun _ => (Quiet.define name).bind fun _ =>
      (f.bind_quiet bodies _ (h.below (by simp [Node.enclosed]))).bind fun _ => .pure _
  | .classDecl name ms, here, h, _ =>
    (Quiet.declare name).bind fun _ => (Quiet.define name).bind fun _ =>
      (Quiet.inScope _ (bindMethods_quiet bodies ms _ fun m hm => h.below (by
        simpa [Node.enclosed] using ⟨m, hm, rfl⟩))).bind fun _ => .pure _
  | .block ss, here, h, hl =>
    (Quiet.inScope _ (bindStmts_quiet bodies ss here (fun t ht => h.below (by simp [Node.enclosed, ht])) hl)).bind
      fun _ => .pure _
  | .ifThen c y none, here, h, hl =>
    (c.bind_quiet bodies here (h.below (by simp [Node.enclosed])) hl).bind fun _ =>
      (y.bind_quiet bodies here (h.below (by simp [Node.enclosed])) hl).bind fun _ => .pure _
  | .ifThen c y (some n), here, h, hl =>
    (c.bind_quiet bodies here (h.below (by simp [Node.enclosed])) hl).bind fun _ =>
      (y.bind_quiet bodies here (h.below (by simp [Node.enclosed])) hl).bind fun _ =>
        (n.bind_quiet bodies here (h.below (by simp [Node.enclosed])) hl).bind fun _ => .pure _
  | .whileLoop c b none, here, h, hl =>
    (c.bind_quiet bodies here (h.below (by simp [Node.enclosed])) hl).bind fun _ =>
      (b.bind_quiet (.loop :: bodies) { here with inLoop := true } (h.below (by simp [Node.enclosed]))
        fun _ => rfl).bind fun _ => .pure _
  | .whileLoop c b (some s), here, h, hl =>
    (c.bind_quiet bodies here (h.below (by simp [Node.enclosed])) hl).bind fun _ =>
      (b.bind_quiet (.loop :: bodies) { here with inLoop := true } (h.below (by simp [Node.enclosed]))
        fun _ => rfl).bind fun _ =>
          (s.bind_quiet bodies { here with inLoop := true } (h.below (by simp [Node.enclosed])) fun _ => rfl).bind
            fun _ => .pure _
  | .ret keyword none, here, _, _ => (Quiet.checkReturn _ keyword _).bind fun _ => .pure _
  | .ret keyword (some e), here, h, hl =>
    (Quiet.checkReturn _ keyword _).bind fun _ =>
      (e.bind_quiet bodies here (h.below (by simp [Node.enclosed])) hl).bind fun _ => .pure _
  | .breakLoop keyword, here, h, hl =>
    (Quiet.checkJump keyword _ (hl (h _ .refl trivial))).bind fun _ => .pure _
  | .continueLoop keyword, here, h, hl =>
    (Quiet.checkJump keyword _ (hl (h _ .refl trivial))).bind fun _ => .pure _
  | .ofExpr e, here, h, hl => (e.bind_quiet bodies here (h.below (by simp [Node.enclosed])) hl).bind fun _ => .pure _

theorem bindStmts_quiet (bodies : List Body) : (ss : List Stmt) → (here : Surroundings) →
    (∀ t ∈ ss, JumpsInside (bodies, .stmt t)) → (insideLoop bodies = true → here.inLoop = true) →
      Quiet (bindStmts here ss)
  | [], _, _, _ => .pure _
  | t :: ts, here, h, hl =>
    (t.bind_quiet bodies here (h t List.mem_cons_self) hl).bind fun _ =>
      (bindStmts_quiet bodies ts here (fun u hu => h u (List.mem_cons_of_mem t hu)) hl).bind fun _ => .pure _

theorem bindMethods_quiet (bodies : List Body) : (ms : List Method) → (here : Surroundings) →
    (∀ m ∈ ms, JumpsInside (bodies, .lambda m.definition)) → Quiet (bindMethods here ms)
  | [], _, _ => .pure _
  | .mk _ f :: ms, here, h =>
    (f.bind_quiet bodies _ (h _ List.mem_cons_self)).bind fun _ =>
      (bindMethods_quiet bodies ms here fun m hm => h m (List.mem_cons_of_mem _ hm)).bind fun _ => .pure _

end

theorem bindProgram_quiet {ss : List Stmt} (h : ∀ t ∈ ss, JumpsInside ([], .stmt t)) :
    ∀ r ∈ (bindProgram ss).reports, ¬r.complaint.IsOutsideLoop := by
  intro r hr hloop
  have hquiet := bindStmts_quiet [] ss {} h (by simp) {} r
  have hmem : r ∈ (Binder.scopesAfter (bindStmts {} ss {})).reports := by
    unfold bindProgram at hr
    simp only [EStateM.run] at hr
    cases hrun : bindStmts {} ss {} with
    | ok bound s => simpa [hrun, Binder.scopesAfter] using hr
    | error d s => simpa [hrun, Binder.scopesAfter] using hr
  exact List.not_mem_nil (hquiet hmem hloop)

end LoxLang
