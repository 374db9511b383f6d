import Mathlib.Data.List.Nodup
import LoxLang.Proofs.Reading.Shape
import LoxLang.Proofs.Scoping.Standing
import LoxLang.Proofs.Tree.Equality

namespace LoxLang

theorem nodup_append_declaredNames (names : List String) (body : List Stmt) :
    (names ++ declaredNames body).Nodup ↔ names.Nodup ∧
      ∀ i t, body[i]? = some t → ∀ n ∈ t.declares, n ∉ names ++ declaredNames (body.take i) := by
  induction body generalizing names with
  | nil => simp [declaredNames]
  | cons t ts ih =>
    have hassoc : names ++ declaredNames (t :: ts) = (names ++ t.declares) ++ declaredNames ts := by
      simp [declaredNames]
    have htake : ∀ i, names ++ declaredNames ((t :: ts).take (i + 1)) =
        (names ++ t.declares) ++ declaredNames (ts.take i) := fun i => by simp [declaredNames]
    have hfirst : (names ++ t.declares).Nodup ↔ names.Nodup ∧ ∀ n ∈ t.declares, n ∉ names := by
      have hsingle : ∀ n : String, (names ++ [n]).Nodup ↔ names.Nodup ∧ n ∉ names := fun n => by
        rw [List.nodup_middle, List.append_nil, List.nodup_cons, and_comm]
      cases t <;> simp [Stmt.declares, hsingle]
    rw [hassoc, ih, hfirst, and_assoc]
    refine and_congr_right fun _ => ⟨?_, fun h => ⟨?_, fun i => ?_⟩⟩
    · rintro ⟨hhead, htail⟩ (_ | i) u hu
      · obtain rfl := Option.some.inj hu
        simpa [declaredNames] using hhead
      · rw [htake]
        exact htail i u hu
    · simpa [declaredNames] using h 0 t rfl
    · rw [← htake]
      exact h (i + 1)

section roles

variable {path : List (Node × Nat)}

theorem roleOf_ne_none (path : List (Node × Nat)) : roleOf path ≠ .none := by
  unfold roleOf
  split
  · rename_i ms k _
    cases ms[k]? with
    | none => simp
    | some m =>
      simp only [Option.map_some, Option.getD_some, Method.role]
      split <;> simp
  · simp

theorem roleOn_eq_none : roleOn path = .none ↔ ¬ InFunction path := by
  fun_induction roleOn path with
  | case1 => simp [InFunction]
  | case2 f i outer => simpa [roleOf_ne_none] using ⟨f, i, by simp⟩
  | case3 e i outer ih | case4 t i outer ih => simpa [InFunction] using ih

theorem roleOf_eq_initializer : roleOf path = .initializer ↔
    ∃ name ms k m outer, path = (.stmt (.classDecl name ms), k) :: outer ∧ ms[k]? = some m ∧
      m.name.lexeme = initializerName := by
  unfold roleOf
  split
  · rename_i name ms k outer
    cases hm : ms[k]? with
    | none => simp [hm]
    | some m => simp [Method.role, hm]
  · rename_i hne
    simp only [reduceCtorEq, false_iff]
    rintro ⟨name, ms, k, m, outer, rfl, -⟩
    exact hne _ _ _ _ rfl

theorem roleOn_eq_initializer : roleOn path = .initializer ↔ InInitializer path := by
  have hskip : ∀ (j : Node) (i : Nat) (outer : List (Node × Nat)), (∀ f, j ≠ .lambda f) →
      (InInitializer ((j, i) :: outer) ↔ InInitializer outer) := by
    intro j i outer hj
    constructor
    · rintro ⟨inner, f, i', name, ms, k, m, rest, hpath, hinner, hm⟩
      cases inner with
      | nil => exact absurd (Prod.mk.inj (List.cons.inj hpath).1).1 (hj f)
      | cons x inner =>
        exact ⟨inner, f, i', name, ms, k, m, rest, (List.cons.inj hpath).2,
          fun ⟨g, l, hg⟩ => hinner ⟨g, l, .tail _ hg⟩, hm⟩
    · rintro ⟨inner, f, i', name, ms, k, m, rest, rfl, hinner, hm⟩
      refine ⟨(j, i) :: inner, f, i', name, ms, k, m, rest, rfl, ?_, hm⟩
      rintro ⟨g, l, hg⟩
      obtain he | hg := List.mem_cons.1 hg
      · exact hj g (Prod.mk.inj he).1.symm
      · exact hinner ⟨g, l, hg⟩
  fun_induction roleOn path with
  | case1 => simp [InInitializer]
  | case2 f i outer =>
    rw [roleOf_eq_initializer]
    constructor
    · rintro ⟨name, ms, k, m, rest, rfl, hm⟩
      exact ⟨[], f, i, name, ms, k, m, rest, rfl, by simp [InFunction], hm⟩
    · rintro ⟨inner, g, i', name, ms, k, m, rest, hpath, hinner, hm⟩
      cases inner with
      | nil => exact ⟨name, ms, k, m, rest, (List.cons.inj hpath).2, hm⟩
      | cons x inner => exact absurd ⟨f, i, by rw [← (List.cons.inj hpath).1]; simp⟩ hinner
  | case3 e i outer ih | case4 t i outer ih => exact ih.trans (hskip _ _ _ (by simp)).symm

end roles

namespace Enclosing

variable {s : Enclosing} {b : Bindings Bool} {name : String}

theorem mem_before : name ∈ s.before ↔
    name ∈ s.names ∨ ∃ k t, s.body[k]? = some t ∧ name ∈ t.declares ∧ k < s.index := by
  simp only [before, declaredNames, List.mem_append, List.mem_flatMap, List.mem_take_iff_getElem]
  refine or_congr_right ⟨?_, ?_⟩
  · rintro ⟨t, ⟨k, hk, rfl⟩, hname⟩
    exact ⟨k, _, List.getElem?_eq_getElem (by omega), hname, by omega⟩
  · rintro ⟨k, t, ht, hname, hk⟩
    obtain ⟨hlt, rfl⟩ := List.getElem?_eq_some_iff.1 ht
    exact ⟨_, ⟨k, by omega, rfl⟩, hname⟩

theorem mem_here : name ∈ s.here ↔ ∃ t, s.around? = some t ∧ name ∈ t.declares := by
  unfold here
  cases s.around? <;> simp

theorem declares_iff (innermost : Prop) : s.Declares innermost name ↔
    name ∈ s.before ∨ ∃ t, s.around? = some t ∧ name ∈ t.declares ∧ ¬ (innermost ∧ t.Initial) := by
  rw [mem_before, or_assoc]
  refine or_congr_right ⟨?_, ?_⟩
  · rintro ⟨k, t, ht, hname, hk, hown⟩
    obtain hk | rfl := Nat.lt_or_eq_of_le hk
    · exact .inl ⟨k, t, ht, hname, hk⟩
    · exact .inr ⟨t, ht, hname, fun h => hown ⟨h.1, rfl, h.2⟩⟩
  · rintro (⟨k, t, ht, hname, hk⟩ | ⟨t, ht, hname, hown⟩)
    · exact ⟨k, t, ht, hname, Nat.le_of_lt hk, fun h => Nat.ne_of_lt hk h.2.1⟩
    · exact ⟨s.index, t, ht, hname, Nat.le_refl _, fun h => hown ⟨h.1, h.2.2⟩⟩

theorem Shows.contains_iff (h : Shows true b s) : b.contains name = true ↔ s.Declares False name := by
  simp only [Bindings.contains, h name, declares_iff, shown?, mem_here]
  cases s.around? with
  | none => by_cases hbefore : name ∈ s.before <;> simp [hbefore]
  | some t => by_cases hname : name ∈ t.declares <;> by_cases hbefore : name ∈ s.before <;> simp [hname, hbefore]

theorem Shows.find?_iff (h : Shows true b s) (hfresh : name ∈ s.here → name ∉ s.before) :
    b.find? name = some true ↔ s.Declares True name := by
  simp only [mem_here] at hfresh
  simp only [h name, declares_iff, shown?, mem_here]
  cases hs : s.around? with
  | none => by_cases hbefore : name ∈ s.before <;> simp [hbefore]
  | some t =>
    by_cases hname : name ∈ t.declares
    · have hbefore := hfresh ⟨t, hs, hname⟩
      simp [hname, hbefore, ← Stmt.complete_eq_false]
    · by_cases hbefore : name ∈ s.before <;> simp [hname, hbefore]

variable {bs : List (Bindings Bool)} {ss : List Enclosing} {i : Nat}

theorem forall_lt_succ_cons {α : Type} {P : Nat → α → Prop} (a : α) (as : List α) (i : Nat) :
    (∀ k < i + 1, ∀ b, (a :: as)[k]? = some b → P k b) ↔ P 0 a ∧ ∀ k < i, ∀ b, as[k]? = some b → P (k + 1) b := by
  rw [Nat.forall_lt_succ_left]
  simp only [List.getElem?_cons_zero, Option.some.injEq, forall_eq', List.getElem?_cons_succ]

theorem outward?_iff (h : Seen true bs ss) : Scopes.outward? name bs = some i ↔
    (∃ s, ss[i]? = some s ∧ s.Declares False name) ∧ ∀ k < i, ∀ s, ss[k]? = some s → ¬ s.Declares False name := by
  generalize hinside : true = inside at h
  induction h generalizing i with
  | nil => simp [Scopes.outward?]
  | @cons inside b s bs ss hb hbs ih =>
    subst hinside
    rw [Scopes.outward?]
    by_cases hcontains : b.contains name = true
    · have hdecl := hb.contains_iff.1 hcontains
      cases i with
      | zero => simp [hcontains, hdecl]
      | succ i =>
        rw [forall_lt_succ_cons (P := fun _ (s : Enclosing) => ¬ s.Declares False name)]
        simp [hcontains, hdecl]
    · have hdecl := mt hb.contains_iff.2 hcontains
      cases i with
      | zero => simp [hcontains, hdecl]
      | succ i =>
        rw [forall_lt_succ_cons (P := fun _ (s : Enclosing) => ¬ s.Declares False name)]
        simp [hcontains, hdecl, ih rfl]

theorem hops?_iff (h : Seen true bs ss) (hfresh : ∀ s ∈ ss.head?, name ∈ s.here → name ∉ s.before) :
    Scopes.hops? name bs = some i ↔ Found ss name i := by
  cases h with
  | nil => simp [Scopes.hops?, Found]
  | @cons _ b s bs ss hb hbs =>
    have hfind := hb.find?_iff (hfresh s rfl)
    rw [Scopes.hops?, Found]
    cases i with
    | zero => by_cases hfound : b.find? name = some true <;> simp [hfound, ← hfind]
    | succ i =>
      rw [forall_lt_succ_cons (P := fun k (s : Enclosing) => ¬ s.Declares (k = 0) name)]
      by_cases hfound : b.find? name = some true
      · simp [hfound, hfind.1 hfound]
      · simp [hfound, mt hfind.2 hfound, outward?_iff hbs]

end Enclosing

namespace Stands

variable {Δ : Context} {j : Node} {path : List (Node × Nat)} {t : Stmt} {name : String}

theorem free_iff (h : Stands Δ (.stmt t) path) :
    Δ.Free name ↔ ∀ s ∈ (scopesOn path).head?, name ∉ s.before := by
  have hseen := h.seen
  rw [Context.free_iff_seen]
  generalize Δ.seen = bs at hseen ⊢
  generalize scopesOn path = ss at hseen ⊢
  cases hseen with
  | nil => simp
  | @cons _ b s bs ss hb hbs =>
    have hfind := hb name
    by_cases hbefore : name ∈ s.before <;> simp_all [Bindings.contains, Enclosing.shown?, Node.inside]

theorem levels_eq_nil (h : Stands Δ j path) : Δ.levels = [] ↔ scopesOn path = [] := by
  have hseen := h.seen
  have hmap : Δ.levels = [] ↔ Δ.seen = [] := by rw [Context.seen, List.map_eq_nil_iff]
  rw [hmap]
  generalize Δ.seen = bs at hseen ⊢
  generalize scopesOn path = ss at hseen ⊢
  cases hseen <;> simp

end Stands

theorem Node.Allowed.free {Δ : Context} {t : Stmt} (h : (Node.stmt t).Allowed Δ) {name : String}
    (hname : name ∈ t.declares) : Δ.Free name := by
  cases t with
  | varDecl n initial =>
    obtain rfl := List.mem_singleton.1 hname
    cases initial with
    | none => exact h
    | some e => exact h.1
  | funDecl n f | classDecl n ms =>
    obtain rfl := List.mem_singleton.1 hname
    exact h
  | _ => cases hname

theorem Node.Allowed.looped {Δ : Context} {j : Node} (h : j.Allowed Δ) : j.Looped Δ := by
  unfold Looped
  split <;> first | exact h | trivial

section decided

variable {program : List Stmt}

theorem nodup_of_allowed (hstands : ∀ address Δ j, placeAt program address = some (Δ, j) →
      Stands Δ j (above program address) ∧ j.Allowed Δ)
    {address : List Nat} {j : Node} {names : List String} {body : List Stmt} (hj : nodeAt program address = some j)
    (hparts : j.parts = body.map .stmt) (hscope : ∀ i, j.scope? i = some ⟨names, body, i⟩) (hnames : names.Nodup) :
    (names ++ declaredNames body).Nodup := by
  refine (nodup_append_declaredNames names body).2 ⟨hnames, fun i t ht name hname => ?_⟩
  have hpart : nodeAt program (i :: address) = some (.stmt t) := by
    rw [nodeAt_cons hj, hparts, List.getElem?_map, ht, Option.map_some]
  obtain ⟨Γ, hΓ⟩ := exists_placeAt hpart
  obtain ⟨hst, hallowed⟩ := hstands _ _ _ hΓ
  have hfree := hst.free_iff.1 (hallowed.free hname)
  rw [above_cons hj, scopesOn, List.filterMap_cons, hscope] at hfree
  exact hfree _ rfl

namespace WellScoped

variable (h : WellScoped program) {address : List Nat} {s : Enclosing} {t : Stmt} {name : String}

include h

theorem fresh (hs : s ∈ scopesOn (above program address)) (hname : name ∈ s.here) : name ∉ s.before := by
  obtain ⟨⟨j, i⟩, hmem, hscope⟩ := List.mem_filterMap.1 hs
  obtain ⟨outer, hj⟩ := nodeAt_of_mem_above hmem
  obtain ⟨t, ht, hdecl⟩ := Enclosing.mem_here.1 hname
  have hnodup := h.once outer j hj
  cases j with
  | expr e => cases hscope
  | lambda f =>
    obtain rfl := Option.some.inj hscope
    exact ((nodup_append_declaredNames _ f.body).1 hnodup).2 i t ht name hdecl
  | stmt u =>
    cases u with
    | block ss =>
      obtain rfl := Option.some.inj hscope
      exact ((nodup_append_declaredNames [] ss).1 hnodup).2 i t ht name hdecl
    | classDecl n ms =>
      obtain rfl := Option.some.inj hscope
      cases ht
    | _ => cases hscope

theorem free {Δ : Context} (hst : Stands Δ (.stmt t) (above program address)) {n : String} (ht : t.declares = [n]) :
    Δ.Free n := by
  refine hst.free_iff.2 fun s hs => h.fresh (List.mem_of_mem_head? hs) ?_
  exact Enclosing.mem_here.2 ⟨t, hst.around ht s hs, by simp [ht]⟩

end WellScoped

/-- The static rules hold at the nodes of a program, each in its context, exactly if it is well scoped. -/
theorem allowed_iff_wellScoped
    (hshape : ∀ address Δ j, placeAt program address = some (Δ, j) → j.Regular ∧ j.Looped Δ) :
    (∀ address Δ j, placeAt program address = some (Δ, j) → j.Allowed Δ) ↔ WellScoped program := by
  have hstands : ∀ {address Δ j}, placeAt program address = some (Δ, j) → Stands Δ j (above program address) :=
    fun h => Stands.of_placeAt (fun a Γ k hk => (hshape a Γ k hk).1) h
  constructor
  · intro hallowed
    have hboth : ∀ address Δ j, placeAt program address = some (Δ, j) →
        Stands Δ j (above program address) ∧ j.Allowed Δ := fun a Δ j h => ⟨hstands h, hallowed a Δ j h⟩
    constructor
    · intro address j hj
      obtain ⟨Δ, hΔ⟩ := exists_placeAt hj
      unfold Node.declared
      split
      · refine nodup_of_allowed hboth hj ?_ (fun _ => rfl) (hallowed _ _ _ hΔ)
        simp [Node.parts, Node.children, Context.sequence_snd]
      · rename_i ss
        change ([] ++ declaredNames ss).Nodup
        refine nodup_of_allowed hboth hj ?_ (fun _ => rfl) List.nodup_nil
        simp [Node.parts, Node.children, Context.sequence_snd]
      · exact List.nodup_nil
    · intro address name e hj hscopes
      obtain ⟨Δ, hΔ⟩ := exists_placeAt hj
      exact (hallowed _ _ _ hΔ).2 (mt (hstands hΔ).levels_eq_nil.1 hscopes)
    · intro address keyword value hj
      obtain ⟨Δ, hΔ⟩ := exists_placeAt hj
      have hrole := (hallowed _ _ _ hΔ).1
      rw [(hstands hΔ).role] at hrole
      exact not_not.1 (mt roleOn_eq_none.2 hrole)
    · intro address keyword e hj
      obtain ⟨Δ, hΔ⟩ := exists_placeAt hj
      have hrole := (hallowed _ _ _ hΔ).2 rfl
      rw [(hstands hΔ).role] at hrole
      exact mt roleOn_eq_initializer.2 hrole
    · intro address keyword hops hj
      obtain ⟨Δ, hΔ⟩ := exists_placeAt hj
      exact (hstands hΔ).inClass.1 (hallowed _ _ _ hΔ)
  · intro h address Δ j hΔ
    have hj := nodeAt_of_placeAt hΔ
    have hst := hstands hΔ
    cases j with
    | expr e =>
      cases e with
      | self keyword hops => exact hst.inClass.2 (h.self _ _ _ hj)
      | _ => trivial
    | lambda f => exact (List.nodup_append.1 (h.once _ _ hj)).1
    | stmt t =>
      cases t with
      | varDecl name initial =>
        cases initial with
        | none => exact h.free hst rfl
        | some e => exact ⟨h.free hst rfl, fun hlevels => h.initial _ _ _ hj (mt hst.levels_eq_nil.2 hlevels)⟩
      | funDecl name f | classDecl name ms => exact h.free hst rfl
      | ret keyword value =>
        refine ⟨?_, fun hvalue => ?_⟩
        · rw [hst.role]
          exact fun hnone => roleOn_eq_none.1 (show roleOn (above program address) = .none from hnone) (h.returns _ _ _ hj)
        · obtain ⟨e, rfl⟩ := Option.isSome_iff_exists.1 hvalue
          rw [hst.role]
          exact fun hinit => h.valued _ _ _ hj (roleOn_eq_initializer.1 hinit)
      | breakLoop | continueLoop => exact (hshape _ _ _ hΔ).2
      | _ => trivial

end decided

def Node.mentions? : Node → Option (Token × Option Nat)
  | .expr (.ref name hops) | .expr (.assign name hops _) | .expr (.self name hops) => some (name, hops)
  | _ => none

theorem Node.Counted.hops_eq {Δ : Context} {j : Node} (h : j.Counted Δ) {name : Token} {hops : Option Nat}
    (hj : j.mentions? = some (name, hops)) :
    hops = Scopes.hops? name.lexeme Δ.seen ∧ ∃ e, j = .expr e := by
  unfold mentions? at hj
  split at hj
  · obtain ⟨rfl, rfl⟩ := Prod.mk.inj (Option.some.inj hj)
    exact ⟨h, _, rfl⟩
  · obtain ⟨rfl, rfl⟩ := Prod.mk.inj (Option.some.inj hj)
    exact ⟨h, _, rfl⟩
  · obtain ⟨rfl, rfl⟩ := Prod.mk.inj (Option.some.inj hj)
    exact ⟨h, _, rfl⟩
  · cases hj

theorem ResolvedProgram.found {bound : List Stmt} (h : ResolvedProgram bound) {address : List Nat} {j : Node}
    (hj : nodeAt bound address = some j) {name : Token} {hops : Option Nat} (hname : j.mentions? = some (name, hops))
    (i : Nat) : hops = some i ↔ Found (scopesOn (above bound address)) name.lexeme i := by
  have hrules : ∀ address Δ j, placeAt bound address = some (Δ, j) → j.Regular ∧ j.Allowed Δ ∧ j.Counted Δ := by
    intro address Δ j hΔ
    obtain ⟨hregular, hlegal⟩ := (occurs_iff_placeAt.2 ⟨address, hΔ⟩).legal h
    exact ⟨hregular, (Node.legal_iff Δ j).1 hlegal⟩
  have hscoped : WellScoped bound := (allowed_iff_wellScoped fun address Δ j hΔ =>
    ⟨(hrules _ _ _ hΔ).1, (hrules _ _ _ hΔ).2.1.looped⟩).1 fun address Δ j hΔ => (hrules _ _ _ hΔ).2.1
  obtain ⟨Δ, hΔ⟩ := exists_placeAt hj
  obtain ⟨rfl, e, rfl⟩ := (hrules _ _ _ hΔ).2.2.hops_eq hname
  have hst := Stands.of_placeAt (fun _ _ _ hk => (hrules _ _ _ hk).1) hΔ
  exact Enclosing.hops?_iff hst.seen fun s hs => hscoped.fresh (List.mem_of_mem_head? hs)

/-- Of a text that could be read, with reports or without, binding reports nothing exactly if the program is
well scoped; and then it counts each mention out to the scope that the scoping rules give it, and counts
nothing for those that they give none. -/
theorem binding_decides_scoping {source : String} {program : List Stmt}
    (hread : (parse (Token.scan source).1).1 = some program) :
    ((bindProgram program).reports = [] ↔ WellScoped program) ∧
      ∃ bound, (bindProgram program).program = .ok bound ∧
        bound.map Stmt.uncounted = program.map Stmt.uncounted ∧
        ((bindProgram program).reports = [] → ∀ address j name hops, nodeAt bound address = some j →
          j.mentions? = some (name, hops) →
            (∀ i, hops = some i ↔ Found (scopesOn (above program address)) name.lexeme i) ∧
            (hops = none ↔ ∀ i, ¬ Found (scopesOn (above program address)) name.lexeme i)) := by
  have hshaped := parse_scan_shaped hread
  have hshape : ∀ address Δ j, placeAt program address = some (Δ, j) → j.Regular ∧ j.Looped Δ :=
    throughout_iff_placeAt.1 (hshaped.sequence rfl)
  obtain ⟨bound, hok, hsame, hresolved, hreports, -⟩ := bindProgram_binds fun t ht => (hshaped t ht).plain
  refine ⟨?_, bound, hok, hsame, fun hnone address j name hops hj hname => ?_⟩
  · rw [hreports, ← allowed_iff_wellScoped hshape]
    refine throughout_iff_placeAt.trans ?_
    exact forall₄_congr fun _ _ _ _ => by simp
  · have hfound := fun i => ((hresolved.1 hnone).found hj hname i).trans (found_of_uncounted hsame address _ i)
    refine ⟨hfound, ?_⟩
    simp only [← hfound, Option.eq_none_iff_forall_ne_some]

section memo

def memoText : String := "class A { m(a) { { var b = fun () { b = a; return this; }; } } }"

def memoTree (block method object : Option Nat) : List Stmt :=
  let name (s : String) : Token := ⟨.identifier, s, 1, none⟩
  [.classDecl (name "A") [⟨name "m", ⟨[name "a"], [.block [.varDecl (name "b") (some (.function ⟨[],
    [.expression (.assign (name "b") block (.ref (name "a") method)),
      .ret ⟨.kwReturn, "return", 1, none⟩ (some (.self ⟨.kwThis, "this", 1, none⟩ object))]⟩))]]⟩⟩]]

theorem memoTree_bound : (bindProgram (memoTree none none none)).reports = [] ∧
    (bindProgram (memoTree none none none)).program = .ok (memoTree (some 1) (some 2) (some 3)) :=
  ⟨rfl, rfl⟩

theorem memoText_scoped :
    let program := memoTree none none none
    (parse (Token.scan memoText).1).1 = some program ∧ WellScoped program ∧
      Found (scopesOn (above program [0, 0, 0, 0, 0, 0, 0, 0])) "b" 1 ∧
      Found (scopesOn (above program [0, 0, 0, 0, 0, 0, 0, 0, 0])) "a" 2 ∧
      Found (scopesOn (above program [0, 1, 0, 0, 0, 0, 0, 0])) "this" 3 := by
  intro program
  have hread : (parse (Token.scan memoText).1).1 = some program := by decide +kernel
  obtain ⟨hscoped, bound, hbound, -, hfound⟩ := binding_decides_scoping hread
  obtain ⟨hreports, hok⟩ := memoTree_bound
  obtain rfl := Except.ok.inj (hok.symm.trans hbound)
  have hblock := hfound hreports [0, 0, 0, 0, 0, 0, 0, 0] _ _ _ rfl rfl
  have hmethod := hfound hreports [0, 0, 0, 0, 0, 0, 0, 0, 0] _ _ _ rfl rfl
  have hobject := hfound hreports [0, 1, 0, 0, 0, 0, 0, 0] _ _ _ rfl rfl
  exact ⟨hread, hscoped.1 hreports, (hblock.1 1).1 rfl, (hmethod.1 2).1 rfl, (hobject.1 3).1 rfl⟩

end memo

end LoxLang
