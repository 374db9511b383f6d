import LoxLang.Proofs.Addressing
import LoxLang.Proofs.Running.Bound
import LoxLang.Proofs.Running.Distance
import LoxLang.Proofs.Running.Shadowing
import LoxLang.Proofs.Running.Synchrony
import LoxLang.Proofs.Tree.Equality

namespace LoxLang

/-- By distance, but only to frames that hold the name by then. -/
def Addressing.present : Addressing where
  read name
    | some d => do
      let s ← get
      match s.frames.findAt? s.chain d name.lexeme with
      | some (some v) => pure v
      | some none => Exec.defect (.undeclared name.lexeme)
      | none => Exec.defect .invalidDistance
    | none => Exec.find name globals
  write name hops v :=
    match hops with
    | some d => do
      let s ← get
      match s.chain.out? d with
      | some c =>
        if (s.frames.frame c.frame).contains name.lexeme then Exec.defineIn c.frame name.lexeme v
        else Exec.defect (.undeclared name.lexeme)
      | none => Exec.defect .invalidDistance
    | none => Exec.assign name v globals

section present

theorem read_present (name : Token) (hops : Option Nat) :
    (Addressing.present.read name hops).Extends (∀ f, · ≠ .fault f) (Addressing.byDistance.read name hops) := by
  cases hops with
  | none => exact .refl _
  | some d =>
    refine .get fun s => ?_
    cases s.frames.findAt? s.chain d name.lexeme with
    | none => exact .refl _
    | some v =>
      cases v with
      | none => exact fun s => .inl ⟨.defect (.undeclared name.lexeme), s, fun _ => nofun, rfl⟩
      | some v => exact .refl _

theorem write_present (name : Token) (hops : Option Nat) (v : Value) :
    (Addressing.present.write name hops v).Extends (∀ f, · ≠ .fault f)
      (Addressing.byDistance.write name hops v) := by
  cases hops with
  | none => exact .refl _
  | some d =>
    refine .get fun s => ?_
    cases s.chain.out? d with
    | none => exact .refl _
    | some c =>
      dsimp only
      split
      · exact .refl _
      · exact fun s => .inl ⟨.defect (.undeclared name.lexeme), s, fun _ => nofun, rfl⟩

theorem present_extends (n : Nat) : Evaluator.Extends (∀ f, · ≠ .fault f)
    ⟨.present, n, evaluate .present n, execute .present n⟩
    ⟨.byDistance, n, evaluate .byDistance n, execute .byDistance n⟩ := by
  induction n with
  | zero =>
    exact ⟨fun _ => nofun, fun f h => h f rfl, read_present, write_present, Nat.le_refl _, fun _ => .refl _,
      fun _ => .refl _⟩
  | succ n ih =>
    refine ⟨fun _ => nofun, fun f h => h f rfl, read_present, write_present, Nat.le_refl _, fun e => ?_, fun t => ?_⟩
    · simp only [evaluate]
      exact ih.evalRule e
    · simp only [execute]
      exact ih.execRule t

/-- A run that finds the name of each mention in the frame it leads to is the run by distance. -/
theorem runProgram_present {n : Nat} {ss : List Stmt} {s : Store} {r : EStateM.Result Stop Store Unit}
    (h : runProgram .present n ss s = r) (hr : ∀ e t, r = .error e t → ∃ f, e = .fault f) :
    runProgram .byDistance n ss s = r := by
  have hextends : (runProgram .present n ss).Extends (∀ f, · ≠ .fault f) (runProgram .byDistance n ss) := by
    clear h
    induction ss with
    | nil => exact .refl _
    | cons t ts ih => exact ((present_extends n).exec t).bind fun _ => ih
  refine hextends.of_eq h fun e t he heq => ?_
  obtain ⟨f, rfl⟩ := hr e t heq
  exact he f rfl

end present

namespace Session

/-- Runs statements with variables found in the given way. -/
def executeBy (a : Addressing) (fuel : Nat) (ss : List Stmt) (s : Session) : Ending × Session :=
  match runProgram a fuel ss s.store with
  | .ok _ store => (.finished, { s with store })
  | .error (.fault f) store => (.finished, ⟨s.journal.fault f.line f.cause.message, store⟩)
  | .error (.defect d) store => (.defect d, { s with store })
  | .error .endless store => (.endless, { s with store })

theorem executeBy_byDistance : executeBy .byDistance = execute := rfl

end Session

/-- What a run without absent names and undefined variables does not end in. -/
def Stop.Unfound : Stop → Prop
  | .fault ⟨.undefinedVariable _, _⟩ | .defect (.undeclared _) => True
  | _ => False

def Store.addressed? (s : Store) : Option Nat → Option Chain
  | some d => s.chain.out? d
  | none => some globals

section chains

variable {C : Coupling} {w Γ : List C.Label} {chain b : Chain} {name : String} {s s' : Store} {d : Nat}

theorem find?_out (hs : C.Stores w s s') (hc : C.Chains w chain Γ) (hd : chain.out? d = some b)
    (hskip : ∀ i < d, ∀ ℓ, Γ[i]? = some ℓ → ¬ C.holds ℓ name) :
    s.frames.find? name chain = s.frames.find? name b ∧ s.frames.holder? name chain = s.frames.holder? name b := by
  refine Frames.find?_passed hd fun k hk e he => ?_
  have hle : d ≤ Γ.length := by
    have hlinks := mt (Chain.out?_eq_none_iff chain d).2 (by simp [hd])
    rw [hc.links_eq] at hlinks
    omega
  have hlt : k < Γ.length := by omega
  have hlabel : w[e.frame]? = some Γ[k] := by
    rw [(hc.out? he).frame, List.drop_eq_getElem_cons hlt]
    rfl
  cases hcontains : (s.frames.frame e.frame).contains name with
  | false => rfl
  | true =>
    exact absurd ((hs.frame _ _ hlabel).holds hcontains) (hskip k hk _ (List.getElem?_eq_getElem hlt))

end chains

section reads

variable {name : Token} {hops : Option Nat} {v : Value} {s : Store} {b : Chain} {d : Nat}

theorem present_read_found (hb : s.addressed? hops = some b)
    (hv : (s.frames.frame b.frame).find? name.lexeme = some v) :
    Addressing.present.read name hops s = .ok v s := by
  cases hops with
  | some d =>
    have hout : s.chain.out? d = some b := hb
    simp only [Addressing.present, Stopping.get_bind, Frames.findAt?, hout, Option.map_some, hv]
    rfl
  | none =>
    obtain rfl := Option.some.inj hb
    exact (find_apply globals).trans (by rw [Frames.find?_here hv])

theorem present_read_absent (hb : s.addressed? hops = some b)
    (hv : (s.frames.frame b.frame).find? name.lexeme = none) :
    ∃ e : Stop, e.Unfound ∧ Addressing.present.read name hops s = .error e s := by
  cases hops with
  | some d =>
    have hout : s.chain.out? d = some b := hb
    refine ⟨.defect (.undeclared name.lexeme), trivial, ?_⟩
    simp only [Addressing.present, Stopping.get_bind, Frames.findAt?, hout, Option.map_some, hv]
    rfl
  | none =>
    obtain rfl := Option.some.inj hb
    have hnone : s.frames.find? name.lexeme globals = none := hv
    exact ⟨.fault ⟨.undefinedVariable name.lexeme, some name.line⟩, trivial,
      (find_apply globals).trans (by rw [hnone])⟩

theorem present_write_found (hb : s.addressed? hops = some b)
    (hheld : (s.frames.frame b.frame).contains name.lexeme = true) :
    Addressing.present.write name hops v s =
      .ok () { s with frames := s.frames.define b.frame name.lexeme v } := by
  cases hops with
  | some d =>
    have hout : s.chain.out? d = some b := hb
    simp only [Addressing.present, Stopping.get_bind, hout, hheld, if_true]
    rfl
  | none =>
    obtain rfl := Option.some.inj hb
    exact (assign_apply globals).trans (by rw [Frames.holder?_here hheld])

theorem present_write_absent (hb : s.addressed? hops = some b)
    (hheld : (s.frames.frame b.frame).contains name.lexeme = false) :
    ∃ e : Stop, e.Unfound ∧ Addressing.present.write name hops v s = .error e s := by
  cases hops with
  | some d =>
    have hout : s.chain.out? d = some b := hb
    refine ⟨.defect (.undeclared name.lexeme), trivial, ?_⟩
    simp only [Addressing.present, Stopping.get_bind, hout, hheld, Bool.false_eq_true, if_false]
    rfl
  | none =>
    obtain rfl := Option.some.inj hb
    have hnone : s.frames.holder? name.lexeme globals = none := by
      simpa [globals, Frames.holder?, Chain.frame] using hheld
    exact ⟨.fault ⟨.undefinedVariable name.lexeme, some name.line⟩, trivial,
      (assign_apply globals).trans (by rw [hnone])⟩

end reads

section coupling

variable {program : List Stmt} (h : ResolvedProgram program)

/-- A run by distance, that stops where a name is absent, beside one by name. -/
def nameCoupling : Coupling where
  toLabelling := scopeLabelling (· ∈ globalNames program) fun n =>
    List.mem_append_right _ (List.mem_map_of_mem (by cases n <;> decide))
  pairs := Placed [program]
  alike := Placed.alike (List.forall_mem_singleton.2 h)
    (List.forall_mem_singleton.2 fun _ hname => List.mem_append_left _ hname)
  Oracle := Unit
  fits _ _ := True
  fits_mono _ _ := trivial
  allowed _ := True
  allowed_fault _ := trivial
  allowed_endless := trivial
  escapes := Stop.Unfound
  escapes_fault {cause line} hu := by
    cases cause <;> simp_all [Stop.Unfound]

theorem nameCoupling_identical : (nameCoupling h).Identical :=
  ⟨fun _ _ => rfl, fun hp => hp.1⟩

variable {Δ : Context} {j : Node} (hu : Unshadowed program) (ho : Occurs program Δ j) {name : Token}

include hu ho

/-- No frame nearer than the one counted may hold the name of a mention. -/
theorem nearer_frames {d : Nat} (hd : Scopes.hops? name.lexeme Δ.seen = some d) :
    ∀ i < d, ∀ ℓ, Δ.labels[i]? = some ℓ → ¬ (nameCoupling h).holds ℓ name.lexeme := by
  intro i hi ℓ hℓ
  obtain ⟨l, hl, hname⟩ := ho.hops_level h hd
  rw [Context.labels, Context.scopes, List.map_map, List.getElem?_map, Option.map_eq_some_iff] at hℓ
  obtain ⟨m, hm, rfl⟩ := hℓ
  refine (ho.distinct h hu).nearer hd (fun k hk => ?_) i hi m hm
  obtain rfl := Option.some.inj (hl.symm.trans hk)
  exact hname

theorem inner_frames (hname : name.lexeme ∈ globalNames program) :
    ∀ i < Δ.labels.length, ∀ ℓ, Δ.labels[i]? = some ℓ → ¬ (nameCoupling h).holds ℓ name.lexeme := by
  intro i _ ℓ hℓ
  rw [Context.labels, Context.scopes, List.map_map, List.getElem?_map, Option.map_eq_some_iff] at hℓ
  obtain ⟨m, hm, rfl⟩ := hℓ
  have hself : name.lexeme ≠ selfName := fun he => self_not_global h (he ▸ hname)
  exact (ho.distinct h hu).of_global hname hself m (List.mem_of_getElem? hm)

/-- Where a mention finds its name by distance, if the name is there, it finds it by name. -/
theorem frames_found {w : List (Option Scope)} {s : Store} (hs : (nameCoupling h).Stores w s s)
    (hc : (nameCoupling h).Chains w s.chain Δ.labels) {hops : Option Nat}
    (hhops : hops = Scopes.hops? name.lexeme Δ.seen) : ∃ b ℓ, w[b.frame]? = some ℓ ∧
      s.addressed? hops = some b ∧ ((s.frames.frame b.frame).contains name.lexeme = true →
        s.frames.find? name.lexeme s.chain = s.frames.find? name.lexeme b ∧
        s.frames.holder? name.lexeme s.chain = s.frames.holder? name.lexeme b) := by
  cases hops with
  | some d =>
    obtain ⟨l, hl, -⟩ := ho.hops_level h hhops.symm
    cases hout : s.chain.out? d with
    | none =>
      have hlinks : Δ.labels.length < d := hc.links_eq ▸ (Chain.out?_eq_none_iff _ _).1 hout
      have hlt := (List.getElem?_eq_some_iff.1 hl).1
      rw [Context.length_labels] at hlinks
      omega
    | some b =>
      exact ⟨b, _, (hc.out? hout).frame, hout, fun _ => find?_out hs hc hout (nearer_frames h hu ho hhops.symm)⟩
  | none =>
    refine ⟨globals, _, hs.top, rfl, fun hheld => ?_⟩
    have hname : name.lexeme ∈ globalNames program := (hs.frame 0 _ hs.top).holds hheld
    exact find?_out hs hc hc.out?_length (inner_frames h hu ho hname)

theorem read_byName {hops : Option Nat} (hhops : hops = Scopes.hops? name.lexeme Δ.seen)
    (w : List (Option Scope)) :
    (nameCoupling h).Runs w Δ.labels (nameCoupling h).Values
      (fun _ => Addressing.present.read name hops) (Addressing.byName.read name hops) := by
  intro v s s' _ hs hc
  obtain rfl := hs.eq (nameCoupling_identical h)
  obtain ⟨b, ℓ, hℓ, hb, hfound⟩ := frames_found h hu ho hs hc hhops
  cases hv : (s'.frames.frame b.frame).find? name.lexeme with
  | none =>
    obtain ⟨e, he, hleft⟩ := present_read_absent hb hv
    exact ⟨v, _, List.prefix_refl v, fun _ _ => hleft, .escape he⟩
  | some a =>
    have hleft := present_read_found hb hv
    have hright : Addressing.byName.read name hops s' = .ok a s' :=
      (find_apply s'.chain).trans
        (by rw [(hfound (by simp [Bindings.contains, hv])).1, Frames.find?_here hv])
    have ha : (nameCoupling h).Values v a a := by
      have hrel := (hs.frame _ _ hℓ).find? ((nameCoupling h).rename_injective ℓ) name.lexeme
      change Option.Rel _ _ ((s'.frames.frame b.frame).find? name.lexeme) at hrel
      rw [hv] at hrel
      cases hrel with
      | some ha => exact ha
    refine ⟨v, _, List.prefix_refl v, fun _ _ => hleft, ?_⟩
    rw [hright]
    exact .ok ha hs rfl

theorem write_byName {hops : Option Nat} (hhops : hops = Scopes.hops? name.lexeme Δ.seen)
    (w : List (Option Scope)) {a a' : Value} (ha : (nameCoupling h).Values w a a') :
    (nameCoupling h).Runs w Δ.labels (fun _ _ _ => True)
      (fun _ => Addressing.present.write name hops a) (Addressing.byName.write name hops a') := by
  intro v s s' hw hs hc
  obtain rfl := hs.eq (nameCoupling_identical h)
  obtain rfl := ha.eq (nameCoupling_identical h)
  obtain ⟨b, ℓ, hℓ, hb, hfound⟩ := frames_found h hu ho hs hc hhops
  cases hheld : (s'.frames.frame b.frame).contains name.lexeme with
  | false =>
    obtain ⟨e, he, hleft⟩ := present_write_absent (v := a') hb hheld
    exact ⟨v, _, List.prefix_refl v, fun _ _ => hleft, .escape he⟩
  | true =>
    have hleft := present_write_found (v := a') hb hheld
    have hright : Addressing.byName.write name hops a' s' =
        .ok () { s' with frames := s'.frames.define b.frame name.lexeme a' } :=
      (assign_apply s'.chain).trans (by rw [(hfound hheld).2, Frames.holder?_here hheld])
    refine ⟨v, _, List.prefix_refl v, fun _ _ => hleft, ?_⟩
    rw [hright]
    exact .ok trivial (hs.define hℓ ((hs.frame _ _ hℓ).holds hheld) (ha.mono hw)) rfl

omit ho in
theorem nameCoupling_accesses {Γ : List (Option Scope)} {e e' : Expr}
    (hp : Placed [program] Γ (.expr e) (.expr e')) :
    (nameCoupling h).Accesses Γ (fun _ => .present) .byName e e' := by
  obtain ⟨he, _, hprogram, Δ, ho, rfl⟩ := hp
  obtain rfl : e = e' := (Node.expr.inj he).symm
  obtain rfl := List.mem_singleton.1 hprogram
  have hlegal := (ho.legal h).2
  cases e with
  | ref name hops => exact fun w => read_byName h hu ho hlegal w
  | self keyword hops => exact fun w => read_byName h hu ho hlegal.2 w
  | assign name hops e => exact fun w u u' hv => write_byName h hu ho hlegal w hv
  | _ => trivial

end coupling

/-- In a source that no name shadows another in, the walk by name gives the session that the scopes counted
before the run give, if all names are where those lead. -/
theorem byName_runs_as_byDistance {interactive : Bool} {source : String} {ss : List Stmt} (clock : Clock)
    (fuel : Nat) (hss : Session.prepared? interactive source {} = some ss) (hu : Unshadowed ss)
    (hpresent : runProgram .present fuel ss { clock := clock } = runProgram .byDistance fuel ss { clock := clock })
    (hfound : ∀ name line s, runProgram .byDistance fuel ss { clock := clock } ≠
      .error (.fault ⟨.undefinedVariable name, line⟩) s) :
    Session.executeBy .byName fuel ss { store := { clock := clock } } =
      Session.run fuel interactive source { store := { clock := clock } } := by
  have hresolved := Session.prepared_resolved hss
  have hpaired : List.Forall₂ (fun t t' => Placed [ss] [] (.stmt t) (.stmt t')) ss ss :=
    Placed.itself (List.mem_singleton.2 rfl)
  have hdefect : ∀ d s, runProgram .byDistance fuel ss { clock := clock } ≠ .error (.defect d) s := by
    have hall : ∀ program ∈ [ss], ResolvedProgram program := List.forall_mem_singleton.2 hresolved
    have hrest : AtRest hall [none] { clock := clock } := .initial hall clock
    obtain ⟨v, -, -, hdefect, -⟩ := Execution.in_step hall (x := ⟨{ clock := clock }, fuel, ss⟩) hrest
      (List.mem_singleton.2 rfl)
    exact hdefect
  have hstart : (nameCoupling hresolved).Stores [none] { clock := clock } { clock := clock } :=
    Coupling.Stores.initial clock
  obtain ⟨v, r, -, hr, hagree⟩ := Coupling.runProgram_runs (C := nameCoupling hresolved)
    (nameCoupling_accesses hresolved hu) fuel hpaired [none] _ _ (List.prefix_refl _) hstart (.root rfl)
  have hr : runProgram .byDistance fuel ss { clock := clock } = r := hpresent.symm.trans (hr () trivial)
  have hname : runProgram .byName fuel ss { clock := clock } =
      runProgram .byDistance fuel ss { clock := clock } := by
    rw [hr]
    generalize runProgram .byName fuel ss { clock := clock } = r' at hagree ⊢
    cases hagree with
    | ok _ hs _ => rw [hs.eq (nameCoupling_identical hresolved)]
    | error _ hs _ => rw [hs.eq (nameCoupling_identical hresolved)]
    | @escape e s _ he =>
      change e.Unfound at he
      unfold Stop.Unfound at he
      split at he
      · exact absurd hr (hfound _ _ _)
      · exact absurd hr (hdefect _ _)
      · exact he.elim
  have hrun := @Session.run_of_prepared fuel interactive source { store := { clock := clock } } ss hss
  rw [hrun, ← Session.executeBy_byDistance]
  simp only [Session.executeBy, hname]

section closure

def closureText : String := "\x7b var c; fun f(b) \x7b c = b; \x7d f(\"y\"); \x7d"

def closureTree (here out : Option Nat) : List Stmt :=
  let name (s : String) : Token := ⟨.identifier, s, 1, none⟩
  [.block [.varDecl (name "c") none,
    .funDecl (name "f") ⟨[name "b"], [.expression (.assign (name "c") out (.ref (name "b") here))]⟩,
    .expression (.call (.ref (name "f") here) ⟨.rightParen, ")", 1, none⟩ [.literal (.text "y")])]]

theorem closureText_prepared :
    Session.prepared? false closureText {} = some (closureTree (some 0) (some 1)) := by
  have hscan : (Token.scan closureText).2 = [] := by decide +kernel
  have hread : parse (Token.scan closureText).1 = (some (closureTree none none), []) := by decide +kernel
  exact @Session.prepared_of_accepted false closureText {} _ _ _ rfl hscan hread rfl rfl

theorem closureTree_unshadowed : Unshadowed (closureTree (some 0) (some 1)) := by
  intro Δ j scope ho
  refine Occurs.of_throughout (P := fun Δ j => j.opens? = some scope → ∀ name ∈ scope.names, name ≠ selfName →
    name ∉ globalNames _ ∧ ∀ outer ∈ Δ.scopes, name ∉ outer.names) ?_ ho
  refine List.forall_iff_forall_mem.1 ?_
  simp only [Node.opens?, ne_eq, closureTree, Context.sequence, List.forall_cons, throughout_forall,
    Option.some.injEq, Node.children, List.Forall.eq_3, reduceCtorEq, Context.scopes_enter, List.mem_cons,
    forall_eq_or_imp, IsEmpty.forall_iff, List.Forall.eq_1, and_self, List.Forall, Context.scopes_after,
    Context.scopes_withRole, Context.scopes_put, Lambda.body, Context.scopes_withLoop, and_true, true_and,
    List.map_cons, List.map_nil]
  constructor
  · rintro rfl
    decide
  · rintro rfl
    decide

instance (r : EStateM.Result Stop Store Unit) : Decidable (∃ s, r = .ok () s) :=
  match r with
  | .ok () s => isTrue ⟨s, rfl⟩
  | .error _ _ => isFalse nofun

theorem closureTree_runs : ∃ s, runProgram .present 9 (closureTree (some 0) (some 1)) { clock := 0 } = .ok () s := by
  decide +kernel

theorem closureText_runs_byName :
    let ss := closureTree (some 0) (some 1)
    Session.prepared? false closureText {} = some ss ∧ Unshadowed ss ∧
      runProgram .present 9 ss { clock := 0 } = runProgram .byDistance 9 ss { clock := 0 } ∧
      (∀ name line s, runProgram .byDistance 9 ss { clock := 0 } ≠
        .error (.fault ⟨.undefinedVariable name, line⟩) s) ∧
      Session.executeBy .byName 9 ss { store := { clock := 0 } } =
        Session.run 9 false closureText { store := { clock := 0 } } := by
  intro ss
  obtain ⟨t, hpresent⟩ := closureTree_runs
  have hdistance := runProgram_present hpresent nofun
  have hsame := hpresent.trans hdistance.symm
  have hfound : ∀ name line s, runProgram .byDistance 9 ss { clock := 0 } ≠
      .error (.fault ⟨.undefinedVariable name, line⟩) s := by
    intro name line s
    rw [hdistance]
    simp
  exact ⟨closureText_prepared, closureTree_unshadowed, hsame, hfound,
    byName_runs_as_byDistance 0 9 closureText_prepared closureTree_unshadowed hsame hfound⟩

end closure

end LoxLang
