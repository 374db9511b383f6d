import LoxLang.Proofs.Running.Executions
import LoxLang.Proofs.Running.Scoped
import LoxLang.Proofs.Running.Watch

namespace LoxLang

/-- The frames of the chain of a store are instances of the scopes around a place, one for each, and hold
only names that their scopes declare; `made` says of which scope each frame was made. -/
structure InstanceOf (made : Nat → Option Scope) (Δ : Context) (s : Store) : Prop where
  links : s.chain.links = Δ.levels.length
  level : ∀ d l, Δ.levels[d]? = some l → ∃ c, s.chain.out? d = some c ∧ made c.frame = some l.scope ∧
    ∀ name, (s.frames.frame c.frame).contains name = true → name ∈ l.scope.names

def Node.mention? : Node → Option (Token × Nat)
  | .expr (.ref name (some d)) | .expr (.self name (some d)) | .expr (.assign name (some d) _) =>
    some (name, d)
  | _ => none

/-- The node stands in one of the programs, on a chain of instances of the scopes around it. A scope counted
for it is the one in which its name was found, and the frame so many links out is an instance of that. -/
def InStep (programs : List (List Stmt)) (made : Nat → Option Scope) (j : Node) (s : Store) : Prop :=
  ∃ program ∈ programs, ∃ Δ, Occurs program Δ j ∧ InstanceOf made Δ s ∧
    ∀ name d, j.mention? = some (name, d) → Scopes.hops? name.lexeme Δ.seen = some d ∧
      ∃ l c, Δ.levels[d]? = some l ∧ name.lexeme ∈ l.scope.names ∧ s.chain.out? d = some c ∧
        made c.frame = some l.scope ∧
        ∀ held, (s.frames.frame c.frame).contains held = true → held ∈ l.scope.names

theorem Node.mention?_hops {Δ : Context} {j : Node} {name : Token} {d : Nat} (hj : j.Legal Δ)
    (h : j.mention? = some (name, d)) : Scopes.hops? name.lexeme Δ.seen = some d := by
  unfold Node.mention? at h
  split at h
  · cases h
    exact hj.symm
  · cases h
    exact hj.2.symm
  · cases h
    exact hj.symm
  · cases h

section coupling

variable {programs : List (List Stmt)} (h : ∀ program ∈ programs, ResolvedProgram program)

/-- A session beside itself. The oracle knows the scopes of its frames, and how a watched run trips. -/
def stepCoupling : Coupling where
  toLabelling := scopeLabelling (fun _ => True) fun _ => trivial
  pairs := Placed programs
  alike := Placed.alike h fun _ _ _ _ => trivial
  Oracle := (Nat → Option Scope) × Stop
  fits o w := ∀ f ℓ, w[f]? = some ℓ → o.1 f = ℓ
  fits_mono hv ho f ℓ hf := ho f ℓ (Coupling.getElem?_mono hv hf)
  allowed e := ∀ d, e ≠ .defect d
  allowed_fault _ _ := by simp
  allowed_endless _ := by simp
  escapes _ := False
  escapes_fault := id

theorem stepCoupling_identical : (stepCoupling h).Identical :=
  ⟨fun _ _ => rfl, fun hp => hp.1⟩

theorem inStep_watchable : (stepCoupling h).Watchable (fun o => InStep programs o.1) := by
  rintro Γ j j' w s s' ⟨made, trip⟩ ⟨rfl, program, hprogram, Δ, ho, rfl⟩ hs hc hfits
  have hlegal := ho.legal (h program hprogram)
  have hlength : s.chain.links = Δ.levels.length := hc.links_eq.trans Δ.length_labels
  have hlevel : ∀ d l, Δ.levels[d]? = some l → ∃ c, s.chain.out? d = some c ∧
      made c.frame = some l.scope ∧
      ∀ name, (s.frames.frame c.frame).contains name = true → name ∈ l.scope.names := by
    intro d l hl
    have hd := (List.getElem?_eq_some_iff.1 hl).1
    cases hout : s.chain.out? d with
    | none =>
      have := (Chain.out?_eq_none_iff _ _).1 hout
      omega
    | some c =>
      have hframe : w[c.frame]? = some (some l.scope) := by
        rw [(hc.out? hout).frame]
        exact congrArg some (Context.labels_drop_head hl)
      exact ⟨c, rfl, hfits _ _ hframe, fun name hname => (hs.frame _ _ hframe).holds hname⟩
  refine ⟨program, hprogram, Δ, ho, ⟨hlength, hlevel⟩, fun name d hmention => ?_⟩
  have hhops := Node.mention?_hops hlegal.2 hmention
  obtain ⟨l, hl, hname⟩ := ho.hops_level (h program hprogram) hhops
  obtain ⟨c, hout, hmade, hheld⟩ := hlevel d l hl
  exact ⟨hhops, l, c, hl, hname, hout, hmade, hheld⟩

theorem stepCoupling_accesses {Γ : List (Option Scope)} {e e' : Expr} (hp : Placed programs Γ (.expr e) (.expr e')) :
    (stepCoupling h).Accesses Γ (fun _ => .byDistance) .byDistance e e' := by
  obtain ⟨he, program, hprogram, Δ, ho, rfl⟩ := hp
  obtain rfl : e = e' := (Node.expr.inj he).symm
  have hlegal := ho.legal (h program hprogram)
  have hmention : ∀ (name : Token) (hops : Option Nat), hops = Scopes.hops? name.lexeme Δ.seen →
      ∀ d, hops = some d → d < Δ.labels.length ∧
        (stepCoupling h).Declared ((stepCoupling h).head (Δ.labels.drop d)) name name := by
    rintro name _ rfl d hd
    obtain ⟨l, hl, hname⟩ := ho.hops_level (h program hprogram) hd
    refine ⟨Δ.length_labels ▸ (List.getElem?_eq_some_iff.1 hl).1, rfl, ?_⟩
    · have hhead : (stepCoupling h).head (Δ.labels.drop d) = some l.scope := Context.labels_drop_head hl
      rw [hhead]
      exact hname
  have hread : ∀ (name : Token) (hops : Option Nat), hops = Scopes.hops? name.lexeme Δ.seen → ∀ w,
      (stepCoupling h).Runs w Δ.labels (stepCoupling h).Values
        (fun _ => Addressing.byDistance.read name hops) (Addressing.byDistance.read name hops) := by
    intro name hops hhops w
    apply Coupling.read_byDistance rfl
    cases hops with
    | none => rfl
    | some d =>
      obtain ⟨hlt, hname, -⟩ := hmention name _ hhops d rfl
      exact ⟨fun hgt => absurd hlt (Nat.lt_asymm hgt), hname⟩
  cases e with
  | ref name hops => exact hread name hops hlegal.2
  | self keyword hops => exact hread keyword hops hlegal.2.2
  | assign name hops e =>
    intro w u u' hu
    apply Coupling.write_byDistance rfl _ hu
    cases hops with
    | none => rfl
    | some d =>
      obtain ⟨hlt, hname⟩ := hmention name _ hlegal.2 d rfl
      exact ⟨fun hgt => absurd hlt (Nat.lt_asymm hgt), hname⟩
  | _ => trivial

structure AtRest (w : List (Option Scope)) (s : Store) : Prop where
  related : (stepCoupling h).Stores w s s
  chain : s.chain = globals

theorem AtRest.initial (clock : Clock) : AtRest h [none] { clock := clock } := ⟨Coupling.Stores.initial clock, rfl⟩

theorem Execution.in_step {w : List (Option Scope)} {x : Execution} (hs : AtRest h w x.store)
    (hx : x.statements ∈ programs) : ∃ v, w <+: v ∧ AtRest h v x.storeAfter ∧
      (∀ d s, x.result ≠ .error (.defect d) s) ∧
      ∀ made trip, (stepCoupling h).fits (made, trip) v →
        watchProgram (InStep programs made) trip x.fuel x.statements x.store = x.result := by
  have hpaired := Placed.itself hx
  have hchain : (stepCoupling h).Chains w x.store.chain [] := hs.chain ▸ .root hs.related.top
  obtain ⟨v, r, hv, hwatched, hagree⟩ := (stepCoupling h).watchProgram_runs Prod.snd
    (inStep_watchable h) (stepCoupling_accesses h) x.fuel hpaired w _ _ (List.prefix_refl w) hs.related hchain
  have hresult : x.result = r := hagree.eq (stepCoupling_identical h) fun _ he => he
  have hend : AtRest h v x.storeAfter ∧ ∀ d s, x.result ≠ .error (.defect d) s := by
    change (stepCoupling h).Agree v _ _ r x.result at hagree
    rw [Execution.storeAfter]
    generalize x.result = r' at hagree hresult
    cases hagree with
    | ok _ hs₁ hc₁ =>
      cases hresult
      exact ⟨⟨hs₁, hc₁.trans hs.chain⟩, by simp⟩
    | error he hs₁ hc₁ =>
      cases hresult
      exact ⟨⟨hs₁, hc₁.trans hs.chain⟩, fun d s heq => he d (by cases heq; rfl)⟩
    | escape he => exact he.elim
  exact ⟨v, hv, hend.1, hend.2, fun made trip hfits => (hwatched (made, trip) hfits).trans hresult.symm⟩

theorem Command.atRest_of_none {w : List (Option Scope)} {c : Command} {s : Session} (hs : AtRest h w s.store)
    (hc : c.execution? s = none) : AtRest h w (c.apply s).store := by
  cases c with
  | run fuel interactive source =>
    have hprepared : Session.prepared? interactive source s.journal = none := by
      simpa [Command.execution?] using hc
    rw [Command.apply, Session.run_of_not_prepared hprepared]
    exact hs
  | reset => exact hs
  | takeOutput => exact ⟨{ hs.related with printed := rfl }, hs.chain⟩
  | setClock clock => exact ⟨{ hs.related with clock := rfl }, hs.chain⟩

theorem Command.in_step {w : List (Option Scope)} {c : Command} {s : Session} (hs : AtRest h w s.store)
    (hall : ∀ x ∈ (c.execution? s).toList, x.statements ∈ programs) :
    ∃ v, w <+: v ∧ AtRest h v (c.apply s).store ∧ ∀ x ∈ (c.execution? s).toList,
      (∀ d t, x.result ≠ .error (.defect d) t) ∧
      ∀ made trip, (stepCoupling h).fits (made, trip) v →
        watchProgram (InStep programs made) trip x.fuel x.statements x.store = x.result := by
  cases hc : c.execution? s with
  | none => exact ⟨w, List.prefix_refl w, Command.atRest_of_none h hs hc, by simp⟩
  | some x =>
    obtain ⟨hstore, hafter⟩ := Command.apply_of_some hc
    obtain ⟨v, hv, hrest, hstep⟩ := Execution.in_step h (hstore ▸ hs) (hall x (by simp [hc]))
    refine ⟨v, hv, hafter ▸ hrest, fun y hy => ?_⟩
    obtain rfl := Option.some.inj (Option.mem_toList.1 hy)
    exact hstep

theorem Session.in_step {w : List (Option Scope)} (commands : List Command) {s : Session}
    (hs : AtRest h w s.store)
    (hall : ∀ x ∈ Session.executions commands s, x.statements ∈ programs) :
    ∃ v, w <+: v ∧ AtRest h v (after commands s).store ∧ ∀ x ∈ Session.executions commands s,
      (∀ d t, x.result ≠ .error (.defect d) t) ∧
      ∀ made trip, (stepCoupling h).fits (made, trip) v →
        watchProgram (InStep programs made) trip x.fuel x.statements x.store = x.result := by
  induction commands generalizing w s with
  | nil => exact ⟨w, List.prefix_refl w, hs, by simp [Session.executions]⟩
  | cons c cs ih =>
    simp only [Session.executions, List.forall_mem_append] at hall ⊢
    obtain ⟨v, hv, hrest, hc⟩ := Command.in_step h hs hall.1
    obtain ⟨u, hu, hafter, hcs⟩ := ih hrest hall.2
    refine ⟨u, hv.trans hu, hafter, fun x hx => ⟨(hc x hx).1, fun made trip hfits => ?_⟩, hcs⟩
    exact (hc x hx).2 made trip ((stepCoupling h).fits_mono hu hfits)

end coupling

theorem Session.executions_resolved {commands : List Command} {s : Session} {x : Execution}
    (hx : x ∈ Session.executions commands s) : ResolvedProgram x.statements := by
  induction commands generalizing s with
  | nil => cases hx
  | cons c cs ih =>
    obtain hx | hx := List.mem_append.1 hx
    · cases c with
      | run fuel interactive source =>
        obtain ⟨ss, hprepared, rfl⟩ := Option.map_eq_some_iff.1 (Option.mem_toList.1 hx)
        exact Session.prepared_resolved hprepared
      | _ => cases hx
    · exact ih hx

theorem Session.programs_resolved (commands : List Command) (s : Session) :
    ∀ program ∈ (executions commands s).map Execution.statements, ResolvedProgram program :=
  List.forall_mem_map.2 fun _ hx => executions_resolved hx

theorem Session.new_in_step (clock : Clock) (commands : List Command) :
    let s : Session := { store := { clock := clock } }
    let resolved := programs_resolved commands s
    ∃ w, AtRest resolved w (after commands s).store ∧ ∀ x ∈ executions commands s,
      (∀ d t, x.result ≠ .error (.defect d) t) ∧
      ∀ made trip, (stepCoupling resolved).fits (made, trip) w →
        watchProgram (InStep ((executions commands s).map Execution.statements) made) trip x.fuel x.statements
          x.store = x.result := by
  intro s resolved
  obtain ⟨w, -, hw⟩ := in_step resolved commands (AtRest.initial resolved clock) fun x hx => List.mem_map_of_mem hx
  exact ⟨w, hw⟩

/-- Through a whole session each frame is of one scope for good. Watched for a node that runs out of step, every
execution ends as it does when nobody watches, whatever such a node would have it end with; and none ends in a defect. -/
theorem scopes_in_step (clock : Clock) (commands : List Command) :
    let executions := Session.executions commands { store := { clock := clock } }
    ∃ made : Nat → Option Scope, ∀ x ∈ executions,
      (∀ trip, watchProgram (InStep (executions.map Execution.statements) made) trip x.fuel x.statements
        x.store = x.result) ∧
      ∀ d s, x.result ≠ .error (.defect d) s := by
  intro executions
  obtain ⟨w, -, hw⟩ := Session.new_in_step clock commands
  refine ⟨fun f => w[f]?.join, fun x hx => ⟨fun trip => (hw x hx).2 _ trip fun f ℓ hf => ?_, (hw x hx).1⟩⟩
  exact congrArg Option.join hf

end LoxLang
