import LoxLang.Tree.Bind
import LoxLang.Proofs.Stopping
import LoxLang.Proofs.Tree.Uncounted

namespace LoxLang

namespace Context

@[simp]
theorem here_put (Δ : Context) (name : String) (complete : Bool) : (Δ.put name complete).here = Δ.here := by
  unfold put
  split <;> rfl

@[simp]
theorem tail_seen_put (Δ : Context) (name : String) (complete : Bool) :
    (Δ.put name complete).seen.tail = Δ.seen.tail := by
  obtain ⟨_ | ⟨l, ls⟩, here⟩ := Δ <;> simp [put, seen]

@[simp]
theorem length_levels_put (Δ : Context) (name : String) (complete : Bool) :
    (Δ.put name complete).levels.length = Δ.levels.length := by
  obtain ⟨_ | ⟨l, ls⟩, here⟩ := Δ <;> simp [put]

def ofSeen (levels : List (Bindings Bool)) : Context := ⟨levels.map (⟨.block [], ·⟩), {}⟩

@[simp]
theorem seen_ofSeen (levels : List (Bindings Bool)) : (ofSeen levels).seen = levels := by
  simp [ofSeen, seen, Function.comp_def]

@[simp]
theorem seen_enter (Δ : Context) (scope : Scope) (b : Bindings Bool) :
    (Δ.enter scope b).seen = b :: Δ.seen := rfl

end Context

/-- From these scopes the action comes to this result and to those scopes, with no report exactly if
the condition holds. What was reported and found before plays no part. -/
def Binder.Gives {α : Type} (p : Binder α) (levels : List (Bindings Bool)) (a : α)
    (levels' : List (Bindings Bool)) (good : Prop) : Prop :=
  ∀ reports addresses, ∃ new found,
    p ⟨levels, reports, addresses⟩ = .ok a ⟨levels', new ++ reports, found ++ addresses⟩ ∧
      (new = [] ↔ good)

namespace Binder.Gives

open Stopping

variable {α β : Type} {p : Binder α} {k : α → Binder β} {a : α} {b : β} {good good' : Prop}
  {l l' l'' : List (Bindings Bool)}

theorem pure : Gives (pure a) l a l True := fun _ _ => ⟨[], [], rfl, by simp⟩

theorem bind (hp : Gives p l a l' good) (hk : Gives (k a) l' b l'' good') :
    Gives (p >>= k) l b l'' (good ∧ good') := by
  intro reports addresses
  obtain ⟨new, found, hp, hgood⟩ := hp reports addresses
  obtain ⟨new', found', hk, hgood'⟩ := hk (new ++ reports) (found ++ addresses)
  refine ⟨new' ++ new, found' ++ found, ?_, ?_⟩
  · rw [bind_ok hp, hk, List.append_assoc, List.append_assoc]
  · rw [List.append_eq_nil_iff, hgood, hgood', and_comm]

theorem map (f : α → β) (hp : Gives p l a l' good) :
    Gives (p >>= fun a => Pure.pure (f a)) l (f a) l' good := by
  intro reports addresses
  obtain ⟨new, found, hp, hgood⟩ := hp reports addresses
  exact ⟨new, found, by rw [bind_ok hp, pure_apply], hgood⟩

theorem congr (hp : Gives p l a l' good) (h : good ↔ good') : Gives p l a l' good' := by
  rwa [← propext h]

theorem good_iff {a' : α} (hp : Gives p l a l' good) (hp' : Gives p l a' l'' good') : good ↔ good' := by
  obtain ⟨new, found, hrun, hgood⟩ := hp [] []
  obtain ⟨new', found', hrun', hgood'⟩ := hp' [] []
  have hreports := congrArg Scopes.reports (EStateM.Result.ok.inj (hrun.symm.trans hrun')).2
  simp only [List.append_nil] at hreports
  rw [← hgood, ← hgood', hreports]

theorem report (t : Token) (c : Complaint) : Gives (Binder.report t c) l () l False :=
  fun _ _ => ⟨[⟨.token t, c⟩], [], rfl, by simp⟩

theorem ite_report (c : Prop) [Decidable c] (t : Token) (x : Complaint) :
    Gives (if c then Binder.report t x else Pure.pure ()) l () l (¬c) := by
  by_cases h : c
  · simpa [h] using report t x
  · simpa [h] using pure

theorem inScope {scope top : Bindings Bool} (hp : Gives p (scope :: l) a (top :: l) good) :
    Gives (Binder.inScope scope p) l a l good := by
  intro reports addresses
  obtain ⟨new, found, hp, hgood⟩ := hp reports addresses
  refine ⟨new, found, ?_, hgood⟩
  rw [Binder.inScope, modify_bind, bind_ok hp]
  rfl

theorem locate (m : Mention) (name : Token) :
    Gives (Binder.locate m name) l (Scopes.hops? name.lexeme l) l True := by
  intro reports addresses
  rw [Binder.locate, get_bind]
  cases h : Scopes.hops? name.lexeme l with
  | none => exact ⟨[], [], rfl, by simp⟩
  | some d => exact ⟨[], [⟨m, name, d⟩], rfl, by simp⟩

theorem declare (Δ : Context) (name : Token) :
    Gives (Binder.declare name) Δ.seen () (Δ.put name.lexeme false).seen (Δ.Free name.lexeme) := by
  intro reports addresses
  obtain ⟨_ | ⟨⟨scope, seen⟩, ls⟩, here⟩ := Δ
  · exact ⟨[], [], rfl, by simp [Context.Free]⟩
  · cases h : seen.contains name.lexeme with
    | true =>
      refine ⟨[⟨.token name, .alreadyDeclared⟩], [], ?_, by simp [Context.Free, h]⟩
      simp only [Binder.declare, get_bind, Context.seen, List.map_cons, h]
      rfl
    | false =>
      refine ⟨[], [], ?_, by simp [Context.Free, h]⟩
      simp only [Binder.declare, get_bind, Context.seen, List.map_cons, h]
      rfl

theorem define (Δ : Context) (name : Token) (complete : Bool) :
    Gives (Binder.define name) (Δ.put name.lexeme complete).seen ()
      (Δ.put name.lexeme true).seen True := by
  intro reports addresses
  refine ⟨[], [], ?_, by simp⟩
  obtain ⟨_ | ⟨⟨scope, seen⟩, ls⟩, here⟩ := Δ
  · rfl
  · simp only [Binder.define, get_bind, Context.seen, Context.put, List.map_cons,
      Bindings.contains_put, decide_true, Bool.true_or, if_true, modify_apply, Bindings.put_put,
      List.nil_append]

theorem declareAll (b : Bindings Bool) (params : List Token) :
    Gives (Binder.declareAll params) (b :: l) ()
      (params.foldl (fun b p => b.put p.lexeme true) b :: l)
      ((params.map Token.lexeme).Nodup ∧ ∀ p ∈ params, b.contains p.lexeme = false) := by
  induction params generalizing b with
  | nil => exact pure.congr (by simp)
  | cons p ps ih =>
    let Δ := Context.ofSeen (b :: l)
    have hput : (Δ.put p.lexeme true).seen = b.put p.lexeme true :: l := by
      simp [Δ, Context.ofSeen, Context.put, Context.seen, Function.comp_def]
    have hfree : Δ.Free p.lexeme ↔ b.contains p.lexeme = false := by
      simp [Δ, Context.ofSeen, Context.Free]
    have hp := declare Δ p
    have hd := define Δ p false
    rw [hput] at hd
    rw [Context.seen_ofSeen] at hp
    refine (hp.bind (hd.bind (ih (b.put p.lexeme true)))).congr ?_
    rw [hfree]
    simp only [Bindings.contains_put, List.map_cons, List.nodup_cons, List.mem_map,
      List.forall_mem_cons, Bool.or_eq_false_iff, decide_eq_false_iff_not]
    constructor
    · rintro ⟨hb, -, hnodup, hps⟩
      exact ⟨⟨fun ⟨q, hq, he⟩ => (hps q hq).1 he, hnodup⟩, hb, fun q hq => (hps q hq).2⟩
    · rintro ⟨⟨hne, hnodup⟩, hb, hps⟩
      exact ⟨hb, trivial, hnodup, fun q hq => ⟨fun he => hne ⟨q, hq, he⟩, hps q hq⟩⟩

theorem checkInitial (Δ : Context) (name : Token) (e : Expr) :
    Gives (Binder.checkInitial name e) Δ.seen () Δ.seen
      (Δ.levels ≠ [] → e.bare? ≠ some name.lexeme) := by
  intro reports addresses
  unfold Binder.checkInitial Expr.bare?
  cases e.ungroup with
  | ref other hops =>
    have hempty : Δ.seen.isEmpty = decide (Δ.levels = []) := by
      obtain ⟨_ | _, _⟩ := Δ <;> simp [Context.seen]
    simp only [get_bind, hempty]
    by_cases hl : Δ.levels = []
    · exact ⟨[], [], by simp [hl, pure_apply], by simp [hl]⟩
    · by_cases hn : other.lexeme = name.lexeme
      · exact ⟨[⟨.token other, .ownInitializer⟩], [],
          by simp [hl, hn, Binder.report, modify_apply], by simp [hl, hn]⟩
      · exact ⟨[], [], by simp [hn, pure_apply], by simp [hn]⟩
  | _ => exact ⟨[], [], rfl, by simp⟩

theorem checkReturn (role : Role) (keyword : Token) (hasValue : Bool) :
    Gives (Binder.checkReturn role keyword hasValue) l () l
      (role ≠ .none ∧ (hasValue = true → role ≠ .initializer)) := by
  have hv := ite_report (l := l) (hasValue = true ∧ role = .initializer) keyword .initializerReturn
  by_cases hr : role = .none
  · have h := (report (l := l) keyword .topLevelReturn).bind (k := fun _ => _) hv
    simpa [Binder.checkReturn, hr] using h
  · simpa [Binder.checkReturn, hr] using hv

theorem checkJump (inLoop : Bool) (keyword : Token) (word : String) :
    Gives (Binder.checkJump inLoop keyword word) l () l (inLoop = true) := by
  simpa [Binder.checkJump] using ite_report (l := l) (inLoop = false) keyword (.outsideLoop word)

end Binder.Gives

namespace Context

@[simp]
theorem here_after (t : Stmt) (Δ : Context) : (t.after Δ).here = Δ.here := by
  cases t <;> simp [Stmt.after, Stmt.declares]

theorem after_congr {t t' : Stmt} (h : t'.declares = t.declares) (Δ : Context) :
    t'.after Δ = t.after Δ := by
  simp only [Stmt.after, h]

theorem seen_put (Δ : Context) (name : String) (complete : Bool) :
    (Δ.put name complete).seen = match Δ.seen with
      | [] => []
      | b :: l => b.put name complete :: l := by
  obtain ⟨_ | ⟨l, ls⟩, here⟩ := Δ <;> rfl

theorem free_iff_seen (Δ : Context) (name : String) :
    Δ.Free name ↔ ∀ b ∈ Δ.seen.head?, b.contains name = false := by
  obtain ⟨_ | ⟨l, ls⟩, here⟩ := Δ <;> simp [Free, seen]

theorem seen_put_congr {Δ Γ : Context} (h : Δ.seen = Γ.seen) (name : String) (complete : Bool) :
    (Δ.put name complete).seen = (Γ.put name complete).seen := by
  obtain ⟨_ | ⟨l, ls⟩, here⟩ := Δ <;> obtain ⟨_ | ⟨m, ms⟩, there⟩ := Γ <;> simp_all [put, seen]

theorem seen_after_congr {Δ Γ : Context} (h : Δ.seen = Γ.seen) (t : Stmt) :
    (t.after Δ).seen = (t.after Γ).seen := by
  cases t <;> simp [Stmt.after, Stmt.declares, h, seen_put_congr h]

def afterAll (Δ : Context) (ss : List Stmt) : Context := ss.foldl (fun Δ t => t.after Δ) Δ

theorem tail_seen_after (t : Stmt) (Δ : Context) : (t.after Δ).seen.tail = Δ.seen.tail := by
  cases t <;> simp [Stmt.after, Stmt.declares]

theorem length_seen_after (t : Stmt) (Δ : Context) : (t.after Δ).seen.length = Δ.seen.length := by
  cases t <;> simp [Stmt.after, Stmt.declares, seen]

theorem seen_afterAll {Δ : Context} {b : Bindings Bool} {l : List (Bindings Bool)}
    (h : Δ.seen = b :: l) (ss : List Stmt) : ∃ top, (Δ.afterAll ss).seen = top :: l := by
  induction ss generalizing Δ b with
  | nil => exact ⟨b, h⟩
  | cons t ts ih =>
    have htail := tail_seen_after t Δ
    have hlength := length_seen_after t Δ
    cases ht : (t.after Δ).seen with
    | nil => simp [ht, h] at hlength
    | cons top rest =>
      rw [ht, h] at htail
      exact ih (ht.trans (congrArg (top :: ·) htail))

end Context

namespace Node

/-- What binding needs of a node: there is something to bind in it, and no declaration in a branch or loop. -/
def Common : Node → Prop
  | .expr (.ofStmt _) | .expr (.stub _) | .stmt (.ofExpr _) => False
  | .stmt (.ifThen _ y n) => y.declares = [] ∧ ∀ t, n = some t → t.declares = []
  | .stmt (.whileLoop _ b s) => b.declares = [] ∧ ∀ t, s = some t → t.declares = []
  | _ => True

def Ordinary (j : Node) : Prop :=
  ∀ k, Relation.ReflTransGen (fun a b => b ∈ Node.parts a) j k → k.Common

theorem Ordinary.here {j : Node} (h : j.Ordinary) : j.Common := h j .refl

theorem Ordinary.part {j k : Node} (h : j.Ordinary) (hk : k ∈ j.parts) : k.Ordinary :=
  fun l hl => h l (.head hk hl)

theorem Regular.common {j : Node} (h : j.Regular) : j.Common := by
  cases j with
  | expr e =>
    cases e with
    | ofStmt | stub => exact h
    | _ => trivial
  | lambda f => trivial
  | stmt t =>
    cases t with
    | ofExpr => exact h
    | ifThen => exact h
    | whileLoop c b step =>
      refine ⟨h.1, fun t ht => ?_⟩
      obtain ⟨e, rfl⟩ := h.2 t ht
      rfl
    | _ => trivial

theorem Plain.ordinary {j : Node} (h : j.Plain) : j.Ordinary := fun k hk => (h k hk).common

end Node

namespace Node

/-- The static rules at a node but for the scopes counted. -/
def Allowed (Δ : Context) : Node → Prop
  | .expr (.self _ _) => Δ.here.inClass = true
  | .lambda f => (f.params.map Token.lexeme).Nodup
  | .stmt (.varDecl name none) | .stmt (.funDecl name _) | .stmt (.classDecl name _) => Δ.Free name.lexeme
  | .stmt (.varDecl name (some e)) =>
    Δ.Free name.lexeme ∧ (Δ.levels ≠ [] → e.bare? ≠ some name.lexeme)
  | .stmt (.ret _ value) =>
    Δ.here.role ≠ .none ∧ (value.isSome = true → Δ.here.role ≠ .initializer)
  | .stmt (.breakLoop _) | .stmt (.continueLoop _) => Δ.here.inLoop = true
  | _ => True

def Counted (Δ : Context) : Node → Prop
  | .expr (.ref name hops) | .expr (.assign name hops _) | .expr (.self name hops) =>
    hops = Scopes.hops? name.lexeme Δ.seen
  | _ => True

theorem legal_iff (Δ : Context) (j : Node) : j.Legal Δ ↔ j.Allowed Δ ∧ j.Counted Δ := by
  fun_cases Node.Legal Δ j <;> simp [Allowed, Counted]

end Node

def Abides (counted : Bool) (Δ : Context) (j : Node) : Prop :=
  Throughout (fun Δ j => j.Allowed Δ ∧ (counted = true → j.Counted Δ)) (Δ, j)

theorem abides_iff (counted : Bool) (Δ : Context) (j : Node) :
    Abides counted Δ j ↔ (j.Allowed Δ ∧ (counted = true → j.Counted Δ)) ∧
      ∀ x ∈ j.children Δ, Abides counted x.1 x.2 :=
  throughout_iff _ _

/-- From scopes and surroundings, the action makes the second tree of the first, with no report exactly
if the rules hold of the second; they do so if those but for counts hold of the first. If all of them hold
of the first already, that is the second. -/
def BindsTo {α : Type} (here : Surroundings) (levels : List (Bindings Bool))
    (rules : Bool → Context → α → Prop) (p : Binder α) (a a' : α) : Prop :=
  ∀ Δ : Context, Δ.here = here → Δ.seen = levels →
    p.Gives levels a' levels (rules true Δ a') ∧ (rules true Δ a → a' = a) ∧
      (rules false Δ a ↔ rules true Δ a')

def BindsStmt (here : Surroundings) (levels : List (Bindings Bool)) (p : Binder Stmt) (t t' : Stmt) :
    Prop :=
  ∀ Δ : Context, Δ.here = here → Δ.seen = levels →
    p.Gives levels t' (t.after Δ).seen (Abides true Δ (.stmt t')) ∧ (Abides true Δ (.stmt t) → t' = t) ∧
      (Abides false Δ (.stmt t) ↔ Abides true Δ (.stmt t'))

namespace BindsTo

variable {α β γ δ : Type} {here : Surroundings} {levels : List (Bindings Bool)}
  {R : Bool → Context → α → Prop} {S : Bool → Context → β → Prop} {T : Bool → Context → γ → Prop}
  {U : Bool → Context → δ → Prop} {p : Binder α} {q : Binder β} {r : Binder γ} {a a' : α} {b b' : β} {c c' : γ}

theorem map (f : α → δ) (hp : BindsTo here levels R p a a') (hf : ∀ counted Δ a, U counted Δ (f a) ↔ R counted Δ a) :
    BindsTo here levels U (p >>= fun a => pure (f a)) (f a) (f a') := by
  intro Δ hh hs
  obtain ⟨gp, fp, ep⟩ := hp Δ hh hs
  refine ⟨(gp.map f).congr (hf true Δ a').symm, fun h => ?_, ?_⟩
  · rw [fp ((hf true Δ a).1 h)]
  · rw [hf, hf, ep]

theorem map₂ (f : α → β → δ) (hp : BindsTo here levels R p a a') (hq : BindsTo here levels S q b b')
    (hf : ∀ counted Δ a b, U counted Δ (f a b) ↔ R counted Δ a ∧ S counted Δ b) :
    BindsTo here levels U (p >>= fun a => q >>= fun b => pure (f a b)) (f a b) (f a' b') := by
  intro Δ hh hs
  obtain ⟨gp, fp, ep⟩ := hp Δ hh hs
  obtain ⟨gq, fq, eq⟩ := hq Δ hh hs
  have g := gp.bind (k := fun a => q >>= fun b => pure (f a b)) (gq.map (f a'))
  refine ⟨g.congr (hf true Δ a' b').symm, fun h => ?_, ?_⟩
  · obtain ⟨ha, hb⟩ := (hf true Δ a b).1 h
    rw [fp ha, fq hb]
  · rw [hf, hf, ep, eq]

theorem map₃ (f : α → β → γ → δ) (hp : BindsTo here levels R p a a')
    (hq : BindsTo here levels S q b b') (hr : BindsTo here levels T r c c')
    (hf : ∀ counted Δ a b c, U counted Δ (f a b c) ↔ R counted Δ a ∧ S counted Δ b ∧ T counted Δ c) :
    BindsTo here levels U (p >>= fun a => q >>= fun b => r >>= fun c => pure (f a b c))
      (f a b c) (f a' b' c') := by
  intro Δ hh hs
  obtain ⟨gp, fp, ep⟩ := hp Δ hh hs
  obtain ⟨gq, fq, eq⟩ := hq Δ hh hs
  obtain ⟨gr, fr, er⟩ := hr Δ hh hs
  have g := gp.bind (k := fun a => q >>= fun b => r >>= fun c => pure (f a b c))
    (gq.bind (k := fun b => r >>= fun c => pure (f a' b c)) (gr.map (f a' b')))
  refine ⟨g.congr (hf true Δ a' b' c').symm, fun h => ?_, ?_⟩
  · obtain ⟨ha, hb, hc⟩ := (hf true Δ a b c).1 h
    rw [fp ha, fq hb, fr hc]
  · rw [hf, hf, ep, eq, er]

theorem of_declares_nil {p : Binder Stmt} {t u : Stmt}
    (hp : BindsTo here levels (fun counted Δ t => Abides counted Δ (.stmt t)) p t u) (ht : t.declares = [])
    (hu : u.uncounted = t.uncounted) : ∃ t', t'.uncounted = t.uncounted ∧ BindsStmt here levels p t t' := by
  refine ⟨u, hu, fun Δ hh hs => ?_⟩
  have hafter : (t.after Δ).seen = levels := by simpa [Stmt.after, ht] using hs
  rw [hafter]
  exact hp Δ hh hs

theorem inLoop (h : BindsTo { here with inLoop := true } levels R p a a') :
    BindsTo here levels (fun counted Δ a => R counted (Δ.withLoop true) a) p a a' :=
  fun Δ hh hs => h (Δ.withLoop true) (by simp [Context.withLoop, hh]) hs

end BindsTo

theorem BindsStmt.branch {here : Surroundings} {levels : List (Bindings Bool)} {p : Binder Stmt}
    {t t' : Stmt} (h : BindsStmt here levels p t t') (ht : t.declares = []) :
    BindsTo here levels (fun counted Δ t => Abides counted Δ (.stmt t)) p t t' := by
  intro Δ hh hs
  have hafter : (t.after Δ).seen = levels := by simpa [Stmt.after, ht] using hs
  exact hafter ▸ h Δ hh hs

mutual

theorem Expr.bindsTo : (e : Expr) → (here : Surroundings) → (levels : List (Bindings Bool)) →
    Node.Ordinary (.expr e) → ∃ e', e'.uncounted = e.uncounted ∧
      BindsTo here levels (fun counted Δ e => Abides counted Δ (.expr e)) (e.bind here) e e'
  | .literal v, here, levels, h => by
    have hrules : ∀ counted Δ, Abides counted Δ (.expr (.literal v)) := fun counted Δ =>
      (abides_iff _ _ _).2 (by simp [Node.Allowed, Node.Counted, Node.children])
    exact ⟨.literal v, rfl, fun Δ hh hs =>
      ⟨Binder.Gives.pure.congr (by simp [hrules]), fun _ => rfl, by simp [hrules]⟩⟩
  | .ref name hops, here, levels, h => by
    have hrules : ∀ counted Δ hops, Abides counted Δ (.expr (.ref name hops)) ↔
        (counted = true → hops = Scopes.hops? name.lexeme Δ.seen) := fun counted Δ hops =>
      (abides_iff _ _ _).trans
        (by simp [Node.Allowed, Node.Counted, Node.children])
    refine ⟨.ref name (Scopes.hops? name.lexeme levels), rfl, fun Δ hh hs => ⟨?_, fun hr => ?_, ?_⟩⟩
    · rw [Expr.bind]
      exact ((Binder.Gives.locate .ref name).map (Expr.ref name)).congr (by simp [hrules, hs])
    · rw [(hrules _ _ _).1 hr rfl, hs]
    · simp [hrules, hs]
  | .self keyword hops, here, levels, h => by
    have hrules : ∀ counted Δ hops, Abides counted Δ (.expr (.self keyword hops)) ↔ Δ.here.inClass = true ∧
        (counted = true → hops = Scopes.hops? keyword.lexeme Δ.seen) := fun counted Δ hops =>
      (abides_iff _ _ _).trans
        (by simp [Node.Allowed, Node.Counted, Node.children])
    cases hc : here.inClass with
    | true =>
      refine ⟨.self keyword (Scopes.hops? keyword.lexeme levels), rfl,
        fun Δ hh hs => ⟨?_, fun hr => ?_, ?_⟩⟩
      · rw [Expr.bind, if_pos hc]
        exact ((Binder.Gives.locate .self keyword).map (Expr.self keyword)).congr (by simp [hrules, hh, hc, hs])
      · rw [((hrules _ _ _).1 hr).2 rfl, hs]
      · simp [hrules, hh, hc, hs]
    | false =>
      refine ⟨.self keyword hops, rfl, fun Δ hh hs => ⟨?_, fun _ => rfl, by simp [hrules, hh, hc]⟩⟩
      rw [Expr.bind, if_neg (by simp [hc])]
      exact ((Binder.Gives.report keyword .thisOutsideClass).map fun _ =>
        Expr.self keyword hops).congr (by simp [hrules, hh, hc])
  | .assign name hops v, here, levels, h => by
    have hrules : ∀ counted Δ hops v, Abides counted Δ (.expr (.assign name hops v)) ↔
        (counted = true → hops = Scopes.hops? name.lexeme Δ.seen) ∧ Abides counted Δ (.expr v) :=
      fun counted Δ hops v => (abides_iff _ _ _).trans
        (by simp [Node.Allowed, Node.Counted, Node.children])
    obtain ⟨v', hu, hv⟩ := v.bindsTo here levels (h.part (by simp [Node.parts, Node.children]))
    refine ⟨.assign name (Scopes.hops? name.lexeme levels) v', by simp [Expr.uncounted, hu],
      fun Δ hh hs => ⟨?_, fun hr => ?_, ?_⟩⟩
    · rw [Expr.bind]
      have g := (hv Δ hh hs).1.bind
        (k := fun v => Binder.locate .assign name >>= fun d => pure (Expr.assign name d v))
        ((Binder.Gives.locate .assign name).map fun d => Expr.assign name d v')
      exact g.congr (by simp [hrules, hs])
    · have hr := (hrules _ _ _ _).1 hr
      rw [hr.1 rfl, hs, (hv Δ hh hs).2.1 hr.2]
    · simp [hrules, hs, (hv Δ hh hs).2.2]
  | .group e, here, levels, h => by
    obtain ⟨e', hu, he⟩ := e.bindsTo here levels (h.part (by simp [Node.parts, Node.children]))
    exact ⟨.group e', by simp [Expr.uncounted, hu], he.map Expr.group fun counted Δ e =>
      (abides_iff _ _ _).trans (by simp [Node.Allowed, Node.Counted, Node.children])⟩
  | .unary op e, here, levels, h => by
    obtain ⟨e', hu, he⟩ := e.bindsTo here levels (h.part (by simp [Node.parts, Node.children]))
    exact ⟨.unary op e', by simp [Expr.uncounted, hu], he.map (Expr.unary op) fun counted Δ e =>
      (abides_iff _ _ _).trans (by simp [Node.Allowed, Node.Counted, Node.children])⟩
  | .binary l op r, here, levels, h => by
    obtain ⟨l', hul, hl⟩ := l.bindsTo here levels (h.part (by simp [Node.parts, Node.children]))
    obtain ⟨r', hur, hr⟩ := r.bindsTo here levels (h.part (by simp [Node.parts, Node.children]))
    exact ⟨.binary l' op r', by simp [Expr.uncounted, hul, hur], hl.map₂ (Expr.binary · op ·) hr
      fun counted Δ l r => (abides_iff _ _ _).trans
        (by simp [Node.Allowed, Node.Counted, Node.children])⟩
  | .logical l op r, here, levels, h => by
    obtain ⟨l', hul, hl⟩ := l.bindsTo here levels (h.part (by simp [Node.parts, Node.children]))
    obtain ⟨r', hur, hr⟩ := r.bindsTo here levels (h.part (by simp [Node.parts, Node.children]))
    exact ⟨.logical l' op r', by simp [Expr.uncounted, hul, hur], hl.map₂ (Expr.logical · op ·) hr
      fun counted Δ l r => (abides_iff _ _ _).trans
        (by simp [Node.Allowed, Node.Counted, Node.children])⟩
  | .ternary c y n line, here, levels, h => by
    obtain ⟨c', huc, hc⟩ := c.bindsTo here levels (h.part (by simp [Node.parts, Node.children]))
    obtain ⟨y', huy, hy⟩ := y.bindsTo here levels (h.part (by simp [Node.parts, Node.children]))
    obtain ⟨n', hun, hn⟩ := n.bindsTo here levels (h.part (by simp [Node.parts, Node.children]))
    exact ⟨.ternary c' y' n' line, by simp [Expr.uncounted, huc, huy, hun],
      hc.map₃ (Expr.ternary · · · line) hy hn fun counted Δ c y n => (abides_iff _ _ _).trans
        (by simp [Node.Allowed, Node.Counted, Node.children])⟩
  | .call f paren args, here, levels, h => by
    obtain ⟨f', huf, hf⟩ := f.bindsTo here levels (h.part (by simp [Node.parts, Node.children]))
    obtain ⟨args', hua, ha⟩ := bindExprs_bindsTo args here levels
      fun e he => h.part (by simp [Node.parts, Node.children, he])
    exact ⟨.call f' paren args', by simp [Expr.uncounted, huf, hua], hf.map₂ (Expr.call · paren ·) ha
      fun counted Δ f args => (abides_iff _ _ _).trans
        (by simp [Node.Allowed, Node.Counted, Node.children])⟩
  | .property o name, here, levels, h => by
    obtain ⟨o', hu, ho⟩ := o.bindsTo here levels (h.part (by simp [Node.parts, Node.children]))
    exact ⟨.property o' name, by simp [Expr.uncounted, hu], ho.map (Expr.property · name) fun counted Δ o =>
      (abides_iff _ _ _).trans (by simp [Node.Allowed, Node.Counted, Node.children])⟩
  | .setProperty o name v, here, levels, h => by
    obtain ⟨v', huv, hv⟩ := v.bindsTo here levels (h.part (by simp [Node.parts, Node.children]))
    obtain ⟨o', huo, ho⟩ := o.bindsTo here levels (h.part (by simp [Node.parts, Node.children]))
    exact ⟨.setProperty o' name v', by simp [Expr.uncounted, huv, huo],
      hv.map₂ (fun v o => Expr.setProperty o name v) ho fun counted Δ v o => (abides_iff _ _ _).trans
        (by simp [Node.Allowed, Node.Counted, Node.children, and_comm])⟩
  | .function f, here, levels, h => by
    obtain ⟨f', hu, hf⟩ := f.bindsTo { here with role := .function } levels
      (h.part (by simp [Node.parts, Node.children]))
    refine ⟨.function f', by simp [Expr.uncounted, hu], ?_⟩
    have hf' : BindsTo here levels (fun counted Δ f => Abides counted (Δ.withRole .function) (.lambda f))
        (f.bind { here with role := .function }) f f' :=
      fun Δ hh hs => hf (Δ.withRole .function) (by simp [Context.withRole, hh]) hs
    exact hf'.map Expr.function fun counted Δ f =>
      (abides_iff _ _ _).trans (by simp [Node.Allowed, Node.Counted, Node.children])
  | .list es, here, levels, h => by
    obtain ⟨es', hu, he⟩ := bindExprs_bindsTo es here levels
      fun e he => h.part (by simp [Node.parts, Node.children, he])
    exact ⟨.list es', by simp [Expr.uncounted, hu], he.map Expr.list fun counted Δ es =>
      (abides_iff _ _ _).trans (by simp [Node.Allowed, Node.Counted, Node.children])⟩
  | .ofStmt t, _, _, h => h.here.elim
  | .stub s, _, _, h => h.here.elim

theorem bindExprs_bindsTo : (es : List Expr) → (here : Surroundings) →
    (levels : List (Bindings Bool)) → (∀ e ∈ es, Node.Ordinary (.expr e)) →
    ∃ es', es'.map Expr.uncounted = es.map Expr.uncounted ∧
      BindsTo here levels (fun counted Δ es => ∀ e ∈ es, Abides counted Δ (.expr e)) (bindExprs here es) es es'
  | [], _, _, _ => ⟨[], rfl, fun _ _ _ => ⟨Binder.Gives.pure.congr (by simp), fun _ => rfl, by simp⟩⟩
  | e :: es, here, levels, h => by
    obtain ⟨e', hu, he⟩ := e.bindsTo here levels (h e (by simp))
    obtain ⟨es', hus, hes⟩ := bindExprs_bindsTo es here levels fun e he => h e (by simp [he])
    exact ⟨e' :: es', by simp [hu, hus], he.map₂ List.cons hes fun counted Δ e es => by simp⟩

theorem Lambda.bindsTo : (f : Lambda) → (here : Surroundings) → (levels : List (Bindings Bool)) →
    Node.Ordinary (.lambda f) → ∃ f', f'.uncounted = f.uncounted ∧
      BindsTo here levels (fun counted Δ f => Abides counted Δ (.lambda f)) (f.bind here) f f'
  | .mk params body, here, levels, h => by
    let inside (Δ : Context) (body : List Stmt) : Context :=
      (Δ.enter (.function (.mk params body)) (paramsSeen params)).withLoop false
    have hrules : ∀ counted Δ body, Abides counted Δ (.lambda (.mk params body)) ↔
        (params.map Token.lexeme).Nodup ∧
          ∀ x ∈ (inside Δ body).sequence body, Abides counted x.1 x.2 := fun counted Δ body =>
      (abides_iff _ _ _).trans (by
        simp [Node.Allowed, Node.Counted, Node.children, Lambda.params, Lambda.body, inside])
    obtain ⟨body', hu, hbody⟩ := bindStmts_bindsTo body { here with inLoop := false }
      (paramsSeen params :: levels)
      fun t ht => h.part (by simp [Node.parts, Node.children, Context.sequence_snd, ht, Lambda.body])
    refine ⟨.mk params body', by simp [Lambda.uncounted, hu], fun Δ hh hs => ?_⟩
    have hhere : ∀ body, (inside Δ body).here = { here with inLoop := false } := fun body => by
      simp [inside, Context.withLoop, Context.enter, hh]
    have hseen : ∀ body, (inside Δ body).seen = paramsSeen params :: levels := fun body => by
      simp [inside, ← hs]
      rfl
    obtain ⟨g, -⟩ := hbody (inside Δ body') (hhere _) (hseen _)
    obtain ⟨g', fix, hsame⟩ := hbody (inside Δ body) (hhere _) (hseen _)
    refine ⟨?_, fun hr => ?_, ?_⟩
    · rw [Lambda.bind]
      obtain ⟨top, htop⟩ := Context.seen_afterAll (hseen body') body
      rw [htop] at g
      have hd := (Binder.Gives.declareAll (l := levels) ⟨[]⟩ params).bind
        (k := fun _ => bindStmts { here with inLoop := false } body >>= fun b => pure (Lambda.mk params b))
        (g.map (Lambda.mk params))
      exact hd.inScope.congr (by simp [hrules])
    · rw [fix ((hrules _ _ _).1 hr).2]
    · change Abides false Δ _ ↔ Abides true Δ _
      rw [hrules, hrules, hsame, g'.good_iff g]

theorem Stmt.bindsTo : (t : Stmt) → (here : Surroundings) → (levels : List (Bindings Bool)) →
    Node.Ordinary (.stmt t) → ∃ t', t'.uncounted = t.uncounted ∧ BindsStmt here levels (t.bind here) t t'
  | .expression e, here, levels, h => by
    obtain ⟨e', hu, he⟩ := e.bindsTo here levels (h.part (by simp [Node.parts, Node.children]))
    exact (he.map Stmt.expression fun counted Δ e => (abides_iff _ _ _).trans
      (by simp [Node.Allowed, Node.Counted, Node.children])).of_declares_nil rfl
        (by simp [Stmt.uncounted, hu])
  | .print e, here, levels, h => by
    obtain ⟨e', hu, he⟩ := e.bindsTo here levels (h.part (by simp [Node.parts, Node.children]))
    exact (he.map Stmt.print fun counted Δ e => (abides_iff _ _ _).trans
      (by simp [Node.Allowed, Node.Counted, Node.children])).of_declares_nil rfl
        (by simp [Stmt.uncounted, hu])
  | .varDecl name none, here, levels, h => by
    have hrules : ∀ counted Δ, Abides counted Δ (.stmt (.varDecl name none)) ↔ Δ.Free name.lexeme :=
      fun counted Δ => (abides_iff _ _ _).trans
        (by simp [Node.Allowed, Node.Counted, Node.children])
    refine ⟨.varDecl name none, rfl, fun Δ hh hs => ⟨?_, fun _ => rfl, by simp [hrules]⟩⟩
    rw [Stmt.bind, ← hs]
    have g := (Binder.Gives.declare Δ name).bind
      (k := fun _ => Binder.define name >>= fun _ => pure (Stmt.varDecl name none))
      ((Binder.Gives.define Δ name false).map fun _ => Stmt.varDecl name none)
    exact g.congr (by simp [hrules])
  | .varDecl name (some e), here, levels, h => by
    have hrules : ∀ counted Δ e, Abides counted Δ (.stmt (.varDecl name (some e))) ↔ Δ.Free name.lexeme ∧
        (Δ.levels ≠ [] → e.bare? ≠ some name.lexeme) ∧ Abides counted (Δ.put name.lexeme false) (.expr e) :=
      fun counted Δ e => (abides_iff _ _ _).trans
        (by simp [Node.Allowed, Node.Counted, Node.children, and_assoc])
    obtain ⟨e', hu, he⟩ := e.bindsTo here ((Context.ofSeen levels).put name.lexeme false).seen
      (h.part (by simp [Node.parts, Node.children]))
    have hb := Expr.bare?_eq_of_uncounted hu
    refine ⟨.varDecl name (some e'), by simp [Stmt.uncounted, hu], fun Δ hh hs => ?_⟩
    have hput := Context.seen_put_congr (hs.trans (Context.seen_ofSeen levels).symm) name.lexeme false
    obtain ⟨ge, fe, hsame⟩ := he (Δ.put name.lexeme false) (by simp [hh]) hput
    refine ⟨?_, fun hr => ?_, ?_⟩
    · rw [Stmt.bind, ← hs]
      rw [← hput] at ge
      have gc := Binder.Gives.checkInitial (Δ.put name.lexeme false) name e
      have gd := (Binder.Gives.define Δ name false).map fun _ => Stmt.varDecl name (some e')
      have g := (Binder.Gives.declare Δ name).bind (k := fun _ => _)
        (gc.bind (k := fun _ => _) (ge.bind (k := fun e => Binder.define name >>= fun _ =>
          pure (Stmt.varDecl name (some e))) gd))
      have hl : (Δ.put name.lexeme false).levels ≠ [] ↔ Δ.levels ≠ [] := by
        simp [← List.length_pos_iff]
      refine g.congr ?_
      rw [hrules, hb, hl, and_true]
    · rw [fe ((hrules _ _ _).1 hr).2.2]
    · simpa only [hrules, hb] using and_congr_right fun _ => and_congr_right fun _ => hsame
  | .funDecl name f, here, levels, h => by
    have hrules : ∀ counted Δ f, Abides counted Δ (.stmt (.funDecl name f)) ↔ Δ.Free name.lexeme ∧
        Abides counted ((Δ.put name.lexeme true).withRole .function) (.lambda f) :=
      fun counted Δ f => (abides_iff _ _ _).trans
        (by simp [Node.Allowed, Node.Counted, Node.children])
    obtain ⟨f', hu, hf⟩ := f.bindsTo { here with role := .function }
      ((Context.ofSeen levels).put name.lexeme true).seen
      (h.part (by simp [Node.parts, Node.children]))
    refine ⟨.funDecl name f', by simp [Stmt.uncounted, hu], fun Δ hh hs => ?_⟩
    have hput := Context.seen_put_congr (hs.trans (Context.seen_ofSeen levels).symm) name.lexeme true
    obtain ⟨gf, ff, hsame⟩ := hf ((Δ.put name.lexeme true).withRole .function)
      (by simp [Context.withRole, hh]) hput
    refine ⟨?_, fun hr => ?_, ?_⟩
    · rw [Stmt.bind, ← hs]
      rw [← hput] at gf
      have g := (Binder.Gives.declare Δ name).bind (k := fun _ => _)
        ((Binder.Gives.define Δ name false).bind (k := fun _ => _) (gf.map (Stmt.funDecl name)))
      exact g.congr (by rw [hrules, true_and])
    · rw [ff ((hrules _ _ _).1 hr).2]
    · simpa only [hrules] using and_congr_right fun _ => hsame
  | .classDecl name ms, here, levels, h => by
    let self : Bindings Bool := ⟨[(selfName, true)]⟩
    let inside (Δ : Context) (ms : List Method) : Context :=
      ((Δ.put name.lexeme true).enter (.object ms) self).withClass
    have hrules : ∀ counted Δ ms, Abides counted Δ (.stmt (.classDecl name ms)) ↔ Δ.Free name.lexeme ∧
        ∀ m ∈ ms, Abides counted ((inside Δ ms).withRole m.role) (.lambda m.definition) :=
      fun counted Δ ms => (abides_iff _ _ _).trans
        (by simp [Node.Allowed, Node.Counted, Node.children, inside, self])
    obtain ⟨ms', hu, hms⟩ := bindMethods_bindsTo ms { here with inClass := true }
      (self :: ((Context.ofSeen levels).put name.lexeme true).seen)
      fun m hm => h.part (by simpa [Node.parts, Node.children] using ⟨m, hm, rfl⟩)
    refine ⟨.classDecl name ms', by simp [Stmt.uncounted, hu], fun Δ hh hs => ?_⟩
    have hput := Context.seen_put_congr (hs.trans (Context.seen_ofSeen levels).symm) name.lexeme true
    have hhere : ∀ ms, (inside Δ ms).here = { here with inClass := true } := fun ms => by
      simp [inside, Context.withClass, Context.enter, hh]
    have hseen : ∀ ms, (inside Δ ms).seen = self :: ((Context.ofSeen levels).put name.lexeme true).seen :=
      fun ms => congrArg (self :: ·) hput
    obtain ⟨g, -⟩ := hms (inside Δ ms') (hhere _) (hseen _)
    obtain ⟨g', fix, hsame⟩ := hms (inside Δ ms) (hhere _) (hseen _)
    have hiff := hsame.trans (g'.good_iff g)
    refine ⟨?_, fun hr => ?_, ?_⟩
    · rw [Stmt.bind, ← hs]
      rw [← hput] at g
      have g := (Binder.Gives.declare Δ name).bind (k := fun _ => _)
        ((Binder.Gives.define Δ name false).bind (k := fun _ => _)
          (g.inScope.map (Stmt.classDecl name)))
      exact g.congr (by rw [hrules, true_and])
    · rw [fix ((hrules _ _ _).1 hr).2]
    · simpa only [hrules] using and_congr_right fun _ => hiff
  | .block ss, here, levels, h => by
    have hrules : ∀ counted Δ ss, Abides counted Δ (.stmt (.block ss)) ↔
        ∀ x ∈ (Δ.enter (.block ss) ⟨[]⟩).sequence ss, Abides counted x.1 x.2 := fun counted Δ ss =>
      (abides_iff _ _ _).trans (by simp [Node.Allowed, Node.Counted, Node.children])
    obtain ⟨ss', hu, hss⟩ := bindStmts_bindsTo ss here (⟨[]⟩ :: levels)
      fun t ht => h.part (by simp [Node.parts, Node.children, Context.sequence_snd, ht])
    refine BindsTo.of_declares_nil (u := .block ss') (fun Δ hh hs => ?_) rfl (by simp [Stmt.uncounted, hu])
    obtain ⟨g, -⟩ := hss (Δ.enter (.block ss') ⟨[]⟩) hh (by simp [← hs])
    obtain ⟨g', fix, hsame⟩ := hss (Δ.enter (.block ss) ⟨[]⟩) hh (by simp [← hs])
    refine ⟨?_, fun hr => ?_, ?_⟩
    · rw [Stmt.bind]
      obtain ⟨top, htop⟩ := Context.seen_afterAll (b := ⟨[]⟩) (l := levels)
        (Δ := Δ.enter (.block ss') ⟨[]⟩) (by simp [← hs]) ss
      rw [htop] at g
      exact (g.inScope.map Stmt.block).congr (hrules _ _ _).symm
    · rw [fix ((hrules _ _ _).1 hr)]
    · simpa only [hrules] using hsame.trans (g'.good_iff g)
  | .ifThen c y none, here, levels, h => by
    obtain ⟨c', huc, hc⟩ := c.bindsTo here levels (h.part (by simp [Node.parts, Node.children]))
    obtain ⟨y', huy, hy⟩ := y.bindsTo here levels (h.part (by simp [Node.parts, Node.children]))
    exact (hc.map₂ (fun c y => Stmt.ifThen c y none) (hy.branch h.here.1) fun counted Δ c y =>
      (abides_iff _ _ _).trans (by simp [Node.Allowed, Node.Counted, Node.children])).of_declares_nil rfl
        (by simp [Stmt.uncounted, huc, huy])
  | .ifThen c y (some n), here, levels, h => by
    obtain ⟨c', huc, hc⟩ := c.bindsTo here levels (h.part (by simp [Node.parts, Node.children]))
    obtain ⟨y', huy, hy⟩ := y.bindsTo here levels (h.part (by simp [Node.parts, Node.children]))
    obtain ⟨n', hun, hn⟩ := n.bindsTo here levels (h.part (by simp [Node.parts, Node.children]))
    exact (hc.map₃ (fun c y n => Stmt.ifThen c y (some n)) (hy.branch h.here.1) (hn.branch (h.here.2 n rfl))
      fun counted Δ c y n => (abides_iff _ _ _).trans
        (by simp [Node.Allowed, Node.Counted, Node.children])).of_declares_nil rfl
          (by simp [Stmt.uncounted, huc, huy, hun])
  | .whileLoop c b none, here, levels, h => by
    obtain ⟨c', huc, hc⟩ := c.bindsTo here levels (h.part (by simp [Node.parts, Node.children]))
    obtain ⟨b', hub, hb⟩ := b.bindsTo { here with inLoop := true } levels
      (h.part (by simp [Node.parts, Node.children]))
    exact (hc.map₂ (fun c b => Stmt.whileLoop c b none) (hb.branch h.here.1).inLoop fun counted Δ c b =>
      (abides_iff _ _ _).trans (by simp [Node.Allowed, Node.Counted, Node.children])).of_declares_nil rfl
        (by simp [Stmt.uncounted, huc, hub])
  | .whileLoop c b (some s), here, levels, h => by
    obtain ⟨c', huc, hc⟩ := c.bindsTo here levels (h.part (by simp [Node.parts, Node.children]))
    obtain ⟨b', hub, hb⟩ := b.bindsTo { here with inLoop := true } levels
      (h.part (by simp [Node.parts, Node.children]))
    obtain ⟨s', hus, hs⟩ := s.bindsTo { here with inLoop := true } levels
      (h.part (by simp [Node.parts, Node.children]))
    exact (hc.map₃ (fun c b s => Stmt.whileLoop c b (some s)) (hb.branch h.here.1).inLoop
      (hs.branch (h.here.2 s rfl)).inLoop fun counted Δ c b s => (abides_iff _ _ _).trans
        (by simp [Node.Allowed, Node.Counted, Node.children])).of_declares_nil rfl
          (by simp [Stmt.uncounted, huc, hub, hus])
  | .ret keyword none, here, levels, h => by
    have hrules : ∀ counted Δ, Abides counted Δ (.stmt (.ret keyword none)) ↔ Δ.here.role ≠ .none :=
      fun counted Δ => (abides_iff _ _ _).trans
        (by simp [Node.Allowed, Node.Counted, Node.children])
    refine BindsTo.of_declares_nil (u := .ret keyword none)
      (fun Δ hh hs => ⟨?_, fun _ => rfl, by simp [hrules]⟩) rfl rfl
    rw [Stmt.bind]
    exact ((Binder.Gives.checkReturn here.role keyword false).map fun _ => Stmt.ret keyword none).congr
      (by simp [hrules, hh])
  | .ret keyword (some e), here, levels, h => by
    have hrules : ∀ counted Δ e, Abides counted Δ (.stmt (.ret keyword (some e))) ↔
        (Δ.here.role ≠ .none ∧ Δ.here.role ≠ .initializer) ∧ Abides counted Δ (.expr e) :=
      fun counted Δ e => (abides_iff _ _ _).trans
        (by simp [Node.Allowed, Node.Counted, Node.children])
    obtain ⟨e', hu, he⟩ := e.bindsTo here levels (h.part (by simp [Node.parts, Node.children]))
    refine BindsTo.of_declares_nil (u := .ret keyword (some e'))
      (fun Δ hh hs => ⟨?_, fun hr => ?_, ?_⟩) rfl (by simp [Stmt.uncounted, hu])
    · rw [Stmt.bind]
      have g := (Binder.Gives.checkReturn (l := levels) here.role keyword true).bind
        (k := fun _ => e.bind here >>= fun e => pure (Stmt.ret keyword (some e)))
        ((he Δ hh hs).1.map fun e => Stmt.ret keyword (some e))
      exact g.congr (by simp [hrules, hh])
    · rw [(he Δ hh hs).2.1 ((hrules _ _ _).1 hr).2]
    · simpa only [hrules] using and_congr_right fun _ => (he Δ hh hs).2.2
  | .breakLoop keyword, here, levels, h => by
    have hrules : ∀ counted Δ, Abides counted Δ (.stmt (.breakLoop keyword)) ↔ Δ.here.inLoop = true :=
      fun counted Δ => (abides_iff _ _ _).trans
        (by simp [Node.Allowed, Node.Counted, Node.children])
    refine BindsTo.of_declares_nil (u := .breakLoop keyword)
      (fun Δ hh hs => ⟨?_, fun _ => rfl, by simp [hrules]⟩) rfl rfl
    rw [Stmt.bind]
    exact ((Binder.Gives.checkJump here.inLoop keyword "break").map fun _ =>
      Stmt.breakLoop keyword).congr (by simp [hrules, hh])
  | .continueLoop keyword, here, levels, h => by
    have hrules : ∀ counted Δ, Abides counted Δ (.stmt (.continueLoop keyword)) ↔ Δ.here.inLoop = true :=
      fun counted Δ => (abides_iff _ _ _).trans
        (by simp [Node.Allowed, Node.Counted, Node.children])
    refine BindsTo.of_declares_nil (u := .continueLoop keyword)
      (fun Δ hh hs => ⟨?_, fun _ => rfl, by simp [hrules]⟩) rfl rfl
    rw [Stmt.bind]
    exact ((Binder.Gives.checkJump here.inLoop keyword "continue").map fun _ =>
      Stmt.continueLoop keyword).congr (by simp [hrules, hh])
  | .ofExpr e, _, _, h => h.here.elim

theorem bindStmts_bindsTo : (ss : List Stmt) → (here : Surroundings) →
    (levels : List (Bindings Bool)) → (∀ t ∈ ss, Node.Ordinary (.stmt t)) →
    ∃ ss', ss'.map Stmt.uncounted = ss.map Stmt.uncounted ∧ ∀ Δ : Context, Δ.here = here → Δ.seen = levels →
      (bindStmts here ss).Gives levels ss' (Δ.afterAll ss).seen
        (∀ x ∈ Δ.sequence ss', Abides true x.1 x.2) ∧
        ((∀ x ∈ Δ.sequence ss, Abides true x.1 x.2) → ss' = ss) ∧
        ((∀ x ∈ Δ.sequence ss, Abides false x.1 x.2) ↔ ∀ x ∈ Δ.sequence ss', Abides true x.1 x.2)
  | [], _, _, _ =>
    ⟨[], rfl, fun _ _ hs => ⟨hs ▸ Binder.Gives.pure.congr (by simp [Context.sequence]), fun _ => rfl,
      by simp [Context.sequence]⟩⟩
  | t :: ts, here, levels, h => by
    obtain ⟨t', hu, ht⟩ := t.bindsTo here levels (h t (by simp))
    obtain ⟨ts', hus, hts⟩ := bindStmts_bindsTo ts here (t.after (.ofSeen levels)).seen
      fun t ht => h t (by simp [ht])
    have hd := Stmt.declares_eq_of_uncounted hu
    refine ⟨t' :: ts', by simp [hu, hus], fun Δ hh hs => ?_⟩
    obtain ⟨gt, ft, et⟩ := ht Δ hh hs
    have hafter := Context.seen_after_congr (hs.trans (Context.seen_ofSeen levels).symm) t
    obtain ⟨gts, fts, ets⟩ := hts (t.after Δ) (by simp [hh]) hafter
    rw [hafter] at gt
    refine ⟨?_, fun hr => ?_, ?_⟩
    · have g := gt.bind (k := fun t => bindStmts here ts >>= fun ts => pure (t :: ts))
        (gts.map (t' :: ·))
      refine g.congr ?_
      simp [Context.sequence, Context.after_congr hd]
    · simp only [Context.sequence, List.forall_mem_cons] at hr
      rw [ft hr.1, fts hr.2]
    · simp only [Context.sequence, List.forall_mem_cons, et, ets, Context.after_congr hd]

theorem bindMethods_bindsTo : (ms : List Method) → (here : Surroundings) →
    (levels : List (Bindings Bool)) → (∀ m ∈ ms, Node.Ordinary (.lambda m.definition)) →
    ∃ ms', ms'.map Method.uncounted = ms.map Method.uncounted ∧ BindsTo here levels
      (fun counted Δ ms => ∀ m ∈ ms, Abides counted (Δ.withRole m.role) (.lambda m.definition))
      (bindMethods here ms) ms ms'
  | [], _, _, _ => ⟨[], rfl, fun _ _ _ => ⟨Binder.Gives.pure.congr (by simp), fun _ => rfl, by simp⟩⟩
  | .mk name f :: ms, here, levels, h => by
    let role := if name.lexeme = initializerName then Role.initializer else .method
    obtain ⟨f', hu, hf⟩ := f.bindsTo { here with role } levels (h (.mk name f) (by simp))
    obtain ⟨ms', hus, hms⟩ := bindMethods_bindsTo ms here levels fun m hm => h m (by simp [hm])
    refine ⟨.mk name f' :: ms', by simp [Method.uncounted, Method.name, Method.definition, hu, hus], ?_⟩
    have hf' : BindsTo here levels (fun counted Δ f => Abides counted (Δ.withRole role) (.lambda f))
        (f.bind { here with role }) f f' :=
      fun Δ hh hs => hf (Δ.withRole role) (by simp [Context.withRole, hh]) hs
    exact hf'.map₂ (fun f ms => Method.mk name f :: ms) hms fun counted Δ f ms => by
      rw [List.forall_mem_cons]
      exact Iff.rfl

end

/-- The static rules say no more than those on shape, those on place and those on counts. -/
theorem resolved_iff_abides (Δ : Context) (j : Node) : Resolved Δ j ↔ j.Plain ∧ Abides true Δ j := by
  constructor
  · intro h
    exact ⟨h.plain, fun x hx => by simpa using (Node.legal_iff _ _).1 (h x hx).2⟩
  · rintro ⟨hplain, h⟩ x hx
    exact ⟨hplain _ hx.parts, (Node.legal_iff _ _).2 (by simpa using h x hx)⟩

theorem resolvedProgram_iff_abides (program : List Stmt) : ResolvedProgram program ↔
    (∀ t ∈ program, Node.Plain (.stmt t)) ∧ ∀ x ∈ Context.sequence {} program, Abides true x.1 x.2 := by
  constructor
  · intro h
    exact ⟨h.plain, fun x hx => ((resolved_iff_abides _ _).1 (h x hx)).2⟩
  · rintro ⟨hplain, h⟩ x hx
    obtain ⟨t, ht, he⟩ := List.mem_map.1 (Context.sequence_snd {} program ▸ List.mem_map_of_mem hx)
    exact (resolved_iff_abides _ _).2 ⟨he ▸ hplain t ht, h x hx⟩

/-- Binding a program comes to a tree, the same but for its counts, and without a report exactly if the rules
on places and counts hold throughout it, or, counts aside, throughout the program. -/
theorem bindProgram_ordinary {program : List Stmt} (h : ∀ t ∈ program, Node.Ordinary (.stmt t)) :
    ∃ bound, (bindProgram program).program = .ok bound ∧ bound.map Stmt.uncounted = program.map Stmt.uncounted ∧
      ((bindProgram program).reports = [] ↔ ∀ x ∈ Context.sequence {} bound, Abides true x.1 x.2) ∧
      ((bindProgram program).reports = [] ↔ ∀ x ∈ Context.sequence {} program, Abides false x.1 x.2) ∧
      ((∀ x ∈ Context.sequence {} program, Abides true x.1 x.2) → bound = program) := by
  obtain ⟨bound, hu, hb⟩ := bindStmts_bindsTo program {} [] h
  obtain ⟨g, hfix, hsame⟩ := hb {} rfl rfl
  obtain ⟨new, found, hrun, hgood⟩ := g [] []
  have hrun' : (bindStmts {} program).run {} = .ok bound
      ⟨(Context.afterAll {} program).seen, new ++ [], found ++ []⟩ := hrun
  have hreports : (bindProgram program).reports = [] ↔ ∀ x ∈ Context.sequence {} bound, Abides true x.1 x.2 := by
    simp only [bindProgram, hrun', List.append_nil, List.reverse_eq_nil_iff, hgood]
  refine ⟨bound, ?_, hu, hreports, hreports.trans hsame.symm, hfix⟩
  simp only [bindProgram, hrun']

theorem bindProgram_binds {program : List Stmt} (h : ∀ t ∈ program, Node.Plain (.stmt t)) :
    ∃ bound, (bindProgram program).program = .ok bound ∧ bound.map Stmt.uncounted = program.map Stmt.uncounted ∧
      ((bindProgram program).reports = [] ↔ ResolvedProgram bound) ∧
      ((bindProgram program).reports = [] ↔ ∀ x ∈ Context.sequence {} program, Abides false x.1 x.2) ∧
      (ResolvedProgram program → bound = program) := by
  obtain ⟨bound, hok, hu, hreports, hrules, hfix⟩ := bindProgram_ordinary fun t ht => (h t ht).ordinary
  have hplain : ∀ t ∈ bound, Node.Plain (.stmt t) := by
    intro t ht
    obtain ⟨u, hu', he⟩ := List.mem_map.1 (hu ▸ List.mem_map_of_mem ht)
    exact Node.plain_of_uncounted (j := .stmt u) (congrArg Node.stmt he.symm) (h u hu')
  refine ⟨bound, hok, hu, ?_, hrules, fun hr => hfix ((resolvedProgram_iff_abides _).1 hr).2⟩
  rw [hreports, resolvedProgram_iff_abides, and_iff_right hplain]

theorem bindProgram_spec {program : List Stmt} (h : ∀ t ∈ program, Node.Plain (.stmt t)) :
    ∃ bound, (bindProgram program).program = .ok bound ∧
      ((bindProgram program).reports = [] ↔ ∀ x ∈ Context.sequence {} bound, Resolved x.1 x.2) ∧
      ((∀ x ∈ Context.sequence {} program, Resolved x.1 x.2) → bound = program) := by
  obtain ⟨bound, hok, -, hreports, -, hfix⟩ := bindProgram_binds h
  exact ⟨bound, hok, hreports, hfix⟩

end LoxLang
