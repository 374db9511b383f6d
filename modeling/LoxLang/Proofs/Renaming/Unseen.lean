import LoxLang.Proofs.Renaming.Counting
import LoxLang.Proofs.Renaming.Scopes
import LoxLang.Proofs.Running.Executions
import LoxLang.Proofs.Tree.Equality

namespace LoxLang

section declared

variable {Δ : Context} {n m : String} {ss : List Stmt} {t : Stmt}

theorem Context.not_free_put (hΔ : Δ.seen ≠ []) (complete : Bool) : ¬ (Δ.put n complete).Free n := by
  rw [Context.free_iff_seen, Context.seen_put]
  cases hseen : Δ.seen with
  | nil => exact absurd hseen hΔ
  | cons b l => simp [Bindings.contains_put]

theorem Context.not_free_mono (h : ¬ Δ.Free n) (m : String) (complete : Bool) : ¬ (Δ.put m complete).Free n := by
  rw [Context.free_iff_seen] at h ⊢
  rw [Context.seen_put]
  cases hseen : Δ.seen with
  | nil => simp [hseen] at h
  | cons b l => simp_all [Bindings.contains_put]

theorem Context.seen_put_ne_nil (hΔ : Δ.seen ≠ []) (m : String) (complete : Bool) : (Δ.put m complete).seen ≠ [] := by
  rw [Context.seen_put]
  cases hseen : Δ.seen with
  | nil => exact absurd hseen hΔ
  | cons b l => simp

theorem Resolved.free (h : Resolved Δ (.stmt t)) (hn : n ∈ t.declares) : Δ.Free n := by
  have hlegal := ((resolved_iff _ _).1 h).1.2
  cases t with
  | varDecl name initial =>
    obtain rfl := List.mem_singleton.1 hn
    cases initial with
    | none => exact hlegal
    | some e => exact hlegal.1
  | funDecl name _ | classDecl name _ =>
    obtain rfl := List.mem_singleton.1 hn
    exact hlegal
  | _ => cases hn

theorem Stmt.after_eq (t : Stmt) (Δ : Context) : t.after Δ = Δ ∨ ∃ n, t.after Δ = Δ.put n true := by
  cases t with
  | varDecl name _ | funDecl name _ | classDecl name _ => exact .inr ⟨name.lexeme, rfl⟩
  | _ => exact .inl rfl

theorem Stmt.not_free_after (hn : n ∈ t.declares) (hΔ : Δ.seen ≠ []) : ¬ (t.after Δ).Free n := by
  cases t with
  | varDecl name _ | funDecl name _ | classDecl name _ =>
    obtain rfl := List.mem_singleton.1 hn
    exact Context.not_free_put hΔ true
  | _ => cases hn

theorem not_declared_again (h : ∀ x ∈ Δ.sequence ss, Resolved x.1 x.2) (hn : ¬ Δ.Free n) :
    ∀ t ∈ ss, n ∉ t.declares := by
  induction ss generalizing Δ with
  | nil => simp
  | cons t ts ih =>
    rw [Context.sequence, List.forall_mem_cons] at h
    have hafter : ¬ (t.after Δ).Free n := by
      obtain he | ⟨m, he⟩ := t.after_eq Δ
      · rwa [he]
      · rw [he]
        exact Context.not_free_mono hn m true
    exact List.forall_mem_cons.2 ⟨fun hmem => hn (h.1.free hmem), ih h.2 hafter⟩

theorem Stmt.declares_of_routine (h : t.routine? = some n) : n ∈ t.declares := by
  cases t with
  | funDecl name _ | classDecl name _ => exact List.mem_singleton.2 (Option.some.inj h).symm
  | _ => cases h

theorem Stmt.declares_of_variable (h : t.variable? = some n) : n ∈ t.declares := by
  cases t with
  | varDecl name _ => exact List.mem_singleton.2 (Option.some.inj h).symm
  | _ => cases h

theorem Stmt.routine_of_variable (h : t.variable? = some n) : t.routine? = none := by
  cases t with
  | varDecl name _ => rfl
  | _ => cases h

theorem variable_not_routine (h : ∀ x ∈ Δ.sequence ss, Resolved x.1 x.2) (hΔ : Δ.seen ≠ [])
    (hn : n ∈ ss.filterMap Stmt.variable?) : ∀ t ∈ ss, t.routine? ≠ some n := by
  induction ss generalizing Δ with
  | nil => cases hn
  | cons t ts ih =>
    rw [Context.sequence, List.forall_mem_cons] at h
    have hafter : (t.after Δ).seen ≠ [] := by
      obtain he | ⟨m, he⟩ := t.after_eq Δ
      · rwa [he]
      · rw [he]
        exact Context.seen_put_ne_nil hΔ m true
    by_cases hvariable : t.variable? = some n
    · have hagain := not_declared_again h.2 (Stmt.not_free_after (Stmt.declares_of_variable hvariable) hΔ)
      refine List.forall_mem_cons.2 ⟨fun hroutine => ?_, fun u hu hroutine => ?_⟩
      · rw [Stmt.routine_of_variable hvariable] at hroutine
        cases hroutine
      · exact hagain u hu (Stmt.declares_of_routine hroutine)
    · have hts : n ∈ ts.filterMap Stmt.variable? := by
        obtain ⟨u, hu, hname⟩ := List.mem_filterMap.1 hn
        obtain rfl | hu := List.mem_cons.1 hu
        · exact absurd hname hvariable
        · exact List.mem_filterMap.2 ⟨u, hu, hname⟩
      refine List.forall_mem_cons.2 ⟨fun hroutine => ?_, ih h.2 hafter hts⟩
      have hagain := not_declared_again h.2 (Stmt.not_free_after (Stmt.declares_of_routine hroutine) hΔ)
      obtain ⟨u, hu, hname⟩ := List.mem_filterMap.1 hts
      exact hagain u hu (Stmt.declares_of_variable hname)

theorem contains_params {params : List Token} {b : Bindings Bool}
    (h : b.contains n = true ∨ n ∈ params.map Token.lexeme) :
    (params.foldl (fun b p => b.put p.lexeme true) b).contains n = true := by
  induction params generalizing b with
  | nil => simpa using h
  | cons p ps ih =>
    apply ih
    rw [Bindings.contains_put]
    grind

end declared

namespace Renaming

variable {r : Renaming} {program : List Stmt}

theorem Sound.of_local (hr : ResolvedProgram program) (hlocal : r.Local program) (hfresh : r.Fresh program) :
    r.Sound program := by
  have hnode : ∀ place j, nodeAt program place = some j → j.Regular ∧ r.new ∉ j.names := by
    intro place j hj
    obtain ⟨Δ, ho⟩ := nodeAt_occurs hj
    exact ⟨(ho.legal hr).1, hfresh.not_mem Δ j ho⟩
  obtain ⟨j, hj, hold⟩ := hlocal
  obtain ⟨Δ, ho⟩ := nodeAt_occurs hj
  have hvariable : ∀ {ss : List Stmt}, (∀ t ∈ ss, (Node.stmt t).Regular) →
      r.old ∈ ss.filterMap Stmt.variable? → r.old ≠ selfName := by
    intro ss hss hmem hself
    obtain ⟨t, ht, hname⟩ := List.mem_filterMap.1 hmem
    apply Stmt.declares_ne_self hss
    exact List.mem_flatMap.2 ⟨t, ht, hself ▸ Stmt.declares_of_variable hname⟩
  refine ⟨?_, hfresh.ne_self, hfresh.ne_native, fun place k hk => (hnode place k hk).1,
    fun place k hk => (hnode place k hk).2, fun k hk => ?_⟩
  · cases j with
    | expr e => cases hold
    | lambda f =>
      obtain hparam | hbody := List.mem_append.1 hold
      · obtain ⟨p, hp, hname⟩ := List.mem_map.1 hparam
        rw [← hname]
        exact (hnode _ _ hj).1 p hp
      · exact hvariable (ho.regular_of_sequence hr fun x hx => hx) hbody
    | stmt t =>
      cases t with
      | block ss => exact hvariable (ho.regular_of_sequence hr (Γ := Δ.enter (.block ss) ⟨[]⟩) fun x hx => hx) hold
      | _ => cases hold
  · obtain rfl := Option.some.inj (hj.symm.trans hk)
    have hchildren : ∀ x ∈ j.children Δ, Resolved x.1 x.2 := by
      intro x hx
      obtain ⟨y, hy, hreach⟩ := ho
      exact fun z hz => hr y hy z ((hreach.tail hx).trans hz)
    cases j with
    | expr e => cases hold
    | lambda f =>
      obtain hparam | hbody := List.mem_append.1 hold
      · intro t ht hroutine
        have hagain := not_declared_again hchildren (n := r.old) ?_ t ht
        · exact hagain (Stmt.declares_of_routine hroutine)
        · have hcontains : (paramsSeen f.params).contains r.old = true := contains_params (.inr hparam)
          simp [Context.free_iff_seen, Context.withLoop, Context.seen, Context.enter, hcontains]
      · exact variable_not_routine hchildren (by simp [Context.withLoop, Context.seen, Context.enter]) hbody
    | stmt t =>
      cases t with
      | block ss => exact variable_not_routine hchildren (by simp) hold
      | _ => cases hold

theorem nodeAt_echo {only : Stmt} {place : List Nat} {j : Node} (h : nodeAt [only.echo] place = some j) :
    (place = [0] ∧ j = .stmt only.echo) ∨ nodeAt [only] place = some j := by
  induction place generalizing j with
  | nil => cases h
  | cons i outer ih =>
    cases outer with
    | nil =>
      cases i with
      | zero => exact .inl ⟨rfl, (Option.some.inj h).symm⟩
      | succ i => simp [nodeAt] at h
    | cons k outer =>
      right
      rw [nodeAt] at h ⊢
      obtain ⟨j', hj', hpart⟩ := Option.bind_eq_some_iff.1 h
      obtain ⟨hplace, rfl⟩ | hsame := ih hj'
      · rw [hplace]
        cases only <;> exact hpart
      · rw [hsame]
        exact hpart

theorem Sound.echo {only : Stmt} (h : r.Sound [only]) : r.Sound [only.echo] := by
  cases only with
  | expression e =>
    refine ⟨h.old_ne_self, h.new_ne_self, h.ne_native, fun place j hj => ?_, fun place j hj => ?_, fun j hj => ?_⟩
    · obtain ⟨-, rfl⟩ | hj := nodeAt_echo hj
      · trivial
      · exact h.regular place j hj
    · obtain ⟨-, rfl⟩ | hj := nodeAt_echo hj
      · exact List.not_mem_nil
      · exact h.not_mem place j hj
    · obtain ⟨-, rfl⟩ | hj := nodeAt_echo hj
      · simp [Node.body, Stmt.echo]
      · exact h.routine j hj
  | _ => exact h

theorem Sound.asRun (h : r.Sound program) (interactive : Bool) : r.Sound (Session.asRun interactive program) := by
  obtain _ | ⟨t, _ | ⟨u, us⟩⟩ := program
  · exact h
  · cases interactive with
    | false => exact h
    | true => exact h.echo
  · exact h

theorem renameProgram_asRun (r : Renaming) (program : List Stmt) (interactive : Bool) :
    renameProgram r true (Session.asRun interactive program) =
      Session.asRun interactive (renameProgram r true program) := by
  obtain _ | ⟨t, _ | ⟨u, us⟩⟩ := program
  · rfl
  · cases interactive with
    | false => rfl
    | true =>
      cases t with
      | varDecl name initial => cases initial <;> rfl
      | ifThen c y no => cases no <;> rfl
      | whileLoop c b step => cases step <;> rfl
      | ret keyword value => cases value <;> rfl
      | _ => rfl
  · rfl

end Renaming

/-- Two sessions that nobody can tell apart, after runs that ended alike. -/
structure Unseen (x x' : Ending × Session) : Prop where
  ending : x'.1 = x.1
  journal : x'.2.journal = x.2.journal
  printed : x'.2.store.printed = x.2.store.printed
  globalTexts : x'.2.globalTexts = x.2.globalTexts

namespace Coupling

variable {C : Coupling} {w : List C.Label}

theorem Stores.globalTexts_eq {s s' : Store} (h : C.Stores w s s') (j j' : Journal) :
    Session.globalTexts ⟨j', s'⟩ = Session.globalTexts ⟨j, s⟩ :=
  (Values.lookalike C w).globalTexts_eq
    ((h.frame 0 C.top h.top).imp fun _ _ he => ⟨he.1.trans (C.rename_top _), he.2.2⟩) h.lists j j'

theorem Agree.unseen {fuel : Nat} {ss ss' : List Stmt} {s : Session} {chain : Chain}
    {post : Unit → Unit → Prop} (hescapes : ∀ e, ¬ C.escapes e)
    (h : C.Agree w chain post (runProgram .byDistance fuel ss s.store) (runProgram .byDistance fuel ss' s.store)) :
    Unseen (s.execute fuel ss) (s.execute fuel ss') := by
  unfold Session.execute
  generalize runProgram .byDistance fuel ss s.store = x at h ⊢
  generalize runProgram .byDistance fuel ss' s.store = x' at h ⊢
  cases h with
  | ok _ hs _ => exact ⟨rfl, rfl, hs.printed, hs.globalTexts_eq _ _⟩
  | @error e _ _ _ hs _ => cases e <;> exact ⟨rfl, rfl, hs.printed, hs.globalTexts_eq _ _⟩
  | escape he => exact absurd he (hescapes _)

end Coupling

/-- A tree that is read, from a text with errors or without, and that binding has no report on, is accepted with a
local variable renamed to a name of its own, with the same scopes counted for the same nodes. On a new session the two
end alike, with the same output, reports and globals as shown. -/
theorem renamed_local_unseen {source : String} {ss bound : List Stmt} {r : Renaming}
    (hread : (parse (Token.scan source).1).1 = some ss) (hreports : (bindProgram ss).reports = [])
    (hbound : (bindProgram ss).program = .ok bound) (hlocal : r.Local bound) (hfresh : r.Fresh bound) :
    let text := renameProgram r false bound
    (bindProgram text).program = .ok (renameProgram r true bound) ∧ (bindProgram text).reports = [] ∧
    ∀ fuel interactive clock, Unseen
      (Session.bindAndExecute fuel interactive ss { store := { clock := clock } })
      (Session.bindAndExecute fuel interactive text { store := { clock := clock } }) := by
  intro text
  obtain ⟨bound', hok, hresolved, -⟩ := bindProgram_spec fun t ht => (parse_scan_shaped hread t ht).plain
  obtain rfl := Except.ok.inj (hbound.symm.trans hok)
  have hbound_resolved := hresolved.1 hreports
  have hsound := Renaming.Sound.of_local hbound_resolved hlocal hfresh
  have hrenamed := hsound.resolved hbound_resolved
  have hsame : bindProgram text = bindProgram (renameProgram r true bound) := bindProgram_rename r hbound_resolved
  obtain ⟨again, hagain, hreports', hfixed⟩ := bindProgram_spec hrenamed.plain
  obtain rfl := hfixed hrenamed
  rw [← hsame] at hagain hreports'
  refine ⟨hagain, hreports'.2 hrenamed, fun fuel interactive clock => ?_⟩
  have hrun := @Session.bindAndExecute_of_ok fuel interactive { store := { clock := clock } } ss bound
    (by rw [hreports]; rfl) hbound
  have hrun' := @Session.bindAndExecute_of_ok fuel interactive { store := { clock := clock } } text
    (renameProgram r true bound) (by rw [hreports'.2 hrenamed]; rfl) hagain
  rw [hrun, hrun', hreports, hreports'.2 hrenamed, ← Renaming.renameProgram_asRun]
  have hruns := hsound.asRun interactive
  have hstart : (Renaming.coupling hruns).Stores [false] { clock := clock } { clock := clock } :=
    Coupling.Stores.initial clock
  obtain ⟨v, x, -, hx, hagree⟩ := Renaming.Sound.runs hruns fuel [false] [false] _ _ (List.prefix_refl _) hstart
    (.root rfl)
  rw [← hx () trivial] at hagree
  exact hagree.unseen (fun _ he => he)

section shadow

def shadowText : String := "\x7b var a; \x7b a = true; var a = nil; print a; \x7d \x7d"

def shadowTree (outer : String) (out here : Option Nat) : List Stmt :=
  let name (s : String) : Token := ⟨.identifier, s, 1, none⟩
  [.block [.varDecl (name outer) none,
    .block [.expression (.assign (name outer) out (.literal (.bool true))),
      .varDecl (name "a") (some (.literal .nil)), .print (.ref (name "a") here)]]]

theorem shadowTree_fresh : Renaming.Fresh ⟨[0], "a", "z"⟩ (shadowTree "a" (some 1) (some 0)) := by
  refine ⟨by decide, fun n => by cases n <;> decide, fun Δ j ho => ?_⟩
  refine Occurs.of_throughout (P := fun _ j => "z" ∉ j.names) (List.forall_iff_forall_mem.1 ?_) ho
  simp [shadowTree, Context.sequence, throughout_forall, Node.children, List.Forall, Node.names, Stmt.declares]

theorem shadowTree_bound : (bindProgram (shadowTree "a" none none)).reports = [] ∧
    (bindProgram (shadowTree "a" none none)).program = .ok (shadowTree "a" (some 1) (some 0)) :=
  ⟨rfl, rfl⟩

theorem shadowText_renamed_unseen :
    let r : Renaming := ⟨[0], "a", "z"⟩
    let ss := shadowTree "a" none none
    let bound := shadowTree "a" (some 1) (some 0)
    (parse (Token.scan shadowText).1).1 = some ss ∧ (bindProgram ss).reports = [] ∧
      (bindProgram ss).program = .ok bound ∧ r.Local bound ∧ r.Fresh bound ∧
      renameProgram r false bound = shadowTree "z" none none ∧
      (bindProgram (shadowTree "z" none none)).program = .ok (shadowTree "z" (some 1) (some 0)) ∧
      ∀ fuel interactive clock, Unseen
        (Session.bindAndExecute fuel interactive ss { store := { clock := clock } })
        (Session.bindAndExecute fuel interactive (shadowTree "z" none none) { store := { clock := clock } }) := by
  intro r ss bound
  have hread : (parse (Token.scan shadowText).1).1 = some ss := by decide +kernel
  obtain ⟨hreports, hbound⟩ := shadowTree_bound
  have hlocal : r.Local bound := ⟨_, rfl, by decide⟩
  obtain ⟨haccepted, -, hunseen⟩ := renamed_local_unseen hread hreports hbound hlocal shadowTree_fresh
  exact ⟨hread, hreports, hbound, hlocal, shadowTree_fresh, rfl, haccepted, hunseen⟩

end shadow

end LoxLang
