import LoxLang.Proofs.Stopping
import LoxLang.Proofs.Reading.Bodies

namespace LoxLang

/-- From one place to the same or a later one, in the same loops, with no report taken back. -/
structure Cursor.Leads (c c' : Cursor) : Prop where
  loops : c'.loops = c.loops
  rest : c'.rest <:+ c.rest
  reports : c.reports <:+ c'.reports

/-- The place is in these bodies, and the tokens after it end the text. -/
structure Cursor.Stands (ts : List Token) (bodies : List Body) (c : Cursor) : Prop where
  loops : c.loops = Body.tally bodies
  rest : c.rest <:+ ts

namespace Cursor

theorem Leads.refl (c : Cursor) : c.Leads c := ⟨rfl, List.suffix_refl _, List.suffix_refl _⟩

theorem Leads.trans {c c' c'' : Cursor} (h : c.Leads c') (h' : c'.Leads c'') : c.Leads c'' :=
  ⟨h'.loops.trans h.loops, h'.rest.trans h.rest, h.reports.trans h'.reports⟩

theorem Leads.stands {ts : List Token} {bodies : List Body} {c c' : Cursor} (h : c.Leads c')
    (hc : c.Stands ts bodies) : c'.Stands ts bodies :=
  ⟨h.loops.trans hc.loops, h.rest.trans hc.rest⟩

theorem skip_suffix {before rest : List Token} : (skip before rest).2 <:+ rest := by
  induction rest generalizing before with
  | nil => exact List.suffix_refl _
  | cons u rest ih =>
    rw [skip]
    split
    · exact List.suffix_refl _
    · exact ih.trans (List.suffix_cons u rest)

theorem leads_recover (c : Cursor) : c.Leads c.recover := by
  obtain ⟨before, _ | ⟨t, rest⟩, loops, reports⟩ := c
  · exact .refl _
  · refine ⟨rfl, ?_, List.suffix_refl _⟩
    simp only [recover]
    split
    · exact List.suffix_refl _
    · exact skip_suffix.trans (List.suffix_cons t rest)

end Cursor

def Reader.place {α : Type} : EStateM.Result Abort Cursor α → Cursor
  | .ok _ c | .error _ c => c

open Reader

variable {α β : Type}

/-- What comes of a watched reader and of the plain one from a place. -/
inductive Tracked (made : List Report) (c : Cursor) (P : α → Prop) :
    EStateM.Result Abort Cursor α → EStateM.Result Abort Cursor α → Prop
  | ok {a : α} {d : Cursor} (hd : c.Leads d) (ha : P a) : Tracked made c P (.ok a d) (.ok a d)
  | error {e : Abort} {d : Cursor} (hd : c.Leads d) : Tracked made c P (.error e d) (.error e d)
  | stopped {d : Cursor} {r : EStateM.Result Abort Cursor α} (hr : c.Leads (place r))
    (hvalue : ∀ a d, r = .ok a d → P a) (hmade : made <:+ (place r).reports) : Tracked made c P (.error .stuck d) r

/-- In these bodies, at any place in the text, a watched reader tracks the plain one. -/
def Tracks (made : List Report) (ts : List Token) (bodies : List Body) (p p' : Reader α) (P : α → Prop) : Prop :=
  ∀ c : Cursor, c.Stands ts bodies → Tracked made c P (p c) (p' c)

namespace Tracked

variable {made : List Report} {c d : Cursor} {P Q : α → Prop} {r r' : EStateM.Result Abort Cursor α}

theorem leads (h : Tracked made c P r r') : c.Leads (place r') := by
  cases h with
  | ok hd | error hd => exact hd
  | stopped hr => exact hr

theorem value (h : Tracked made c P r r') {a : α} (hr : r' = .ok a d) : P a := by
  cases h with
  | ok _ ha =>
    cases hr
    exact ha
  | error => cases hr
  | stopped _ hvalue => exact hvalue a d hr

theorem mono (h : Tracked made c P r r') (hPQ : ∀ a, P a → Q a) : Tracked made c Q r r' := by
  cases h with
  | ok hd ha => exact .ok hd (hPQ _ ha)
  | error hd => exact .error hd
  | stopped hr hvalue hmade => exact .stopped hr (fun a d ha => hPQ a (hvalue a d ha)) hmade

theorem after (h : Tracked made d P r r') (hd : c.Leads d) : Tracked made c P r r' := by
  cases h with
  | ok he ha => exact .ok (hd.trans he) ha
  | error he => exact .error (hd.trans he)
  | stopped hr hvalue hmade => exact .stopped (hd.trans hr) hvalue hmade

open Stopping

theorem bind {p p' : Reader α} {k k' : α → Reader β} {Q : β → Prop} (h : Tracked made c P (p c) (p' c))
    (hk : ∀ a d, p' c = .ok a d → c.Leads d → P a → Tracked made d Q (k a d) (k' a d)) :
    Tracked made c Q ((p >>= k) c) ((p' >>= k') c) := by
  generalize hpc : p c = r at h
  generalize hpc' : p' c = r' at h hk
  cases h with
  | @ok a d hd ha =>
    rw [bind_ok hpc, bind_ok hpc']
    exact (hk a d rfl hd ha).after hd
  | error hd =>
    rw [bind_error hpc, bind_error hpc']
    exact .error hd
  | stopped hr hvalue hmade =>
    rw [bind_error hpc]
    -- The plain reader goes on alone; what it does is known from the other alternatives.
    cases r' with
    | ok a d =>
      have hrest := hk a d rfl hr (hvalue a d rfl)
      rw [bind_ok hpc']
      exact .stopped (Cursor.Leads.trans hr hrest.leads) (fun b e hb => hrest.value hb)
        (hmade.trans hrest.leads.reports)
    | error e d =>
      rw [bind_error hpc']
      exact .stopped hr nofun hmade

end Tracked

namespace Tracks

open Stopping

variable {made : List Report} {ts : List Token} {bodies : List Body} {p p' : Reader α} {k k' : α → Reader β}
  {P : α → Prop} {Q : β → Prop}

theorem mono {R : α → Prop} (hp : Tracks made ts bodies p p' P) (h : ∀ a, P a → R a) : Tracks made ts bodies p p' R :=
  fun c hc => (hp c hc).mono h

theorem pure {a : α} (h : P a) : Tracks made ts bodies (Pure.pure a) (Pure.pure a) P := fun c _ => .ok (.refl c) h

theorem stuck : Tracks made ts bodies Reader.stuck Reader.stuck P := fun c _ => .error (.refl c)

theorem bind (hp : Tracks made ts bodies p p' P) (hk : ∀ a, P a → Tracks made ts bodies (k a) (k' a) Q) :
    Tracks made ts bodies (p >>= k) (p' >>= k') Q :=
  fun c hc => (hp c hc).bind fun a d _ hd ha => hk a ha d (hd.stands hc)

theorem map {f : α → β} (hp : Tracks made ts bodies p p' P) (hf : ∀ a, P a → Q (f a)) :
    Tracks made ts bodies (f <$> p) (f <$> p') Q := by
  rw [map_eq_pure_bind, map_eq_pure_bind]
  exact hp.bind fun a ha => pure (hf a ha)

theorem ite {c : Prop} [Decidable c] {q q' : Reader α} (hp : Tracks made ts bodies p p' P)
    (hq : Tracks made ts bodies q q' P) : Tracks made ts bodies (if c then p else q) (if c then p' else q') P := by
  split
  · exact hp
  · exact hq

section tokens

theorem peek : Tracks made ts bodies Reader.peek Reader.peek fun t => t ∈ ts := by
  rintro ⟨before, _ | ⟨t, rest⟩, loops, reports⟩ hc
  · exact .error (.refl _)
  · exact .ok (.refl _) (hc.rest.subset List.mem_cons_self)

theorem previous : Tracks made ts bodies Reader.previous Reader.previous fun _ => True := by
  rintro ⟨_ | ⟨t, before⟩, rest, loops, reports⟩ _
  · exact .error (.refl _)
  · exact .ok (.refl _) trivial

theorem report (t : Token) (complaint : Complaint) :
    Tracks made ts bodies (Reader.report t complaint) (Reader.report t complaint) fun _ => True :=
  fun _ _ => .ok ⟨rfl, List.suffix_refl _, List.suffix_cons _ _⟩ trivial

theorem giveUp (t : Token) (complaint : Complaint) :
    Tracks made ts bodies (Reader.giveUp t complaint : Reader α) (Reader.giveUp t complaint) P :=
  fun _ _ => .error ⟨rfl, List.suffix_refl _, List.suffix_cons _ _⟩

theorem take? (test : Token.Kind → Bool) : Tracks made ts bodies (Reader.take? test) (Reader.take? test)
    fun o => ∀ t, o = some t → t ∈ ts ∧ test t.kind = true := by
  rintro ⟨before, _ | ⟨t, rest⟩, loops, reports⟩ hc
  · exact .error (.refl _)
  · by_cases h : t.kind ≠ .eof ∧ test t.kind = true
    · simp only [Reader.take?, if_pos h]
      refine .ok ⟨rfl, List.suffix_cons t rest, List.suffix_refl _⟩ fun u hu => ?_
      obtain rfl := Option.some.inj hu
      exact ⟨hc.rest.subset List.mem_cons_self, h.2⟩
    · simp only [Reader.take?, if_neg h]
      exact .ok (.refl _) nofun

theorem accept (kind : Token.Kind) :
    Tracks made ts bodies (Reader.accept kind) (Reader.accept kind) fun _ => True :=
  (take? _).mono fun _ _ => trivial

theorem expect (kind : Token.Kind) (what : String) :
    Tracks made ts bodies (Reader.expect kind what) (Reader.expect kind what) fun t => t ∈ ts ∧ t.kind = kind := by
  refine (take? _).bind fun o ho => ?_
  cases o with
  | some t => exact .pure ((ho t rfl).imp_right of_decide_eq_true)
  | none => exact peek.bind fun t _ => giveUp t _

theorem sees (kind : Token.Kind) : Tracks made ts bodies (Reader.sees kind) (Reader.sees kind) fun _ => True :=
  peek.bind fun _ _ => .pure trivial

theorem atEnd : Tracks made ts bodies Grammar.atEnd Grammar.atEnd fun _ => True := peek.bind fun _ _ => .pure trivial

theorem seesNamedFunction :
    Tracks made ts bodies Grammar.seesNamedFunction Grammar.seesNamedFunction fun _ => True := by
  rintro ⟨before, _ | ⟨first, _ | ⟨second, rest⟩⟩, loops, reports⟩ _ <;> exact .ok (.refl _) trivial

theorem unlessSees {kind : Token.Kind} {a : α} {rest rest' : α → Reader β} (ha : P a)
    (hp : Tracks made ts bodies p p' P) (hrest : ∀ a, P a → Tracks made ts bodies (rest a) (rest' a) Q) :
    Tracks made ts bodies (Reader.sees kind >>= fun closed => if closed then Pure.pure a >>= rest else p >>= rest)
      (Reader.sees kind >>= fun closed => if closed then Pure.pure a >>= rest' else p' >>= rest') Q :=
  (sees kind).bind fun _ _ => .ite (.bind (.pure ha) hrest) (hp.bind hrest)

end tokens

section bodies

variable {inner : List Body}

theorem between {enter leave : Cursor → Cursor} (henter : ∀ c, (enter c).rest = c.rest ∧ (enter c).reports = c.reports)
    (hloops : ∀ c : Cursor, c.loops = Body.tally bodies → (enter c).loops = Body.tally inner)
    (hleave : ∀ c d : Cursor, c.loops = Body.tally bodies → d.loops = Body.tally inner →
      (leave d).loops = c.loops ∧ (leave d).rest = d.rest ∧ (leave d).reports = d.reports)
    (hp : Tracks made ts inner p p' P) :
    Tracks made ts bodies (Reader.between enter leave p) (Reader.between enter leave p') P := by
  intro c hc
  have hin : (enter c).Stands ts inner := ⟨hloops c hc.loops, (henter c).1 ▸ hc.rest⟩
  have hback : ∀ d, (enter c).Leads d → c.Leads (leave d) ∧ (leave d).reports = d.reports := by
    intro d hd
    obtain ⟨hl, hr, hs⟩ := hleave c d hc.loops (hd.stands hin).loops
    exact ⟨⟨hl, hr ▸ (henter c).1 ▸ hd.rest, hs ▸ (henter c).2 ▸ hd.reports⟩, hs⟩
  have h := hp (enter c) hin
  unfold Reader.between
  generalize p (enter c) = r at h
  generalize p' (enter c) = r' at h
  cases h with
  | ok hd ha => exact .ok (hback _ hd).1 ha
  | error hd => exact .error (hback _ hd).1
  | stopped hr hvalue hmade =>
    obtain ⟨hleads, hreports⟩ := hback _ hr
    cases r' with
    | ok a d => exact .stopped hleads (fun b e hb => by cases hb; exact hvalue a d rfl) (hreports ▸ hmade)
    | error e d => exact .stopped hleads nofun (hreports ▸ hmade)

theorem inLoop (hp : Tracks made ts (.loop :: bodies) p p' P) :
    Tracks made ts bodies (Reader.inLoop p) (Reader.inLoop p') P := by
  obtain ⟨n, ns, htally⟩ := List.exists_cons_of_ne_nil (Body.tally_ne_nil bodies)
  refine hp.between (fun c => ?_) (fun c hc => ?_) fun c d hc hd => ?_
  · unfold Cursor.enterLoop
    split <;> exact ⟨rfl, rfl⟩
  · simp [Cursor.enterLoop, hc, Body.tally, htally]
  · simp only [Body.tally, htally, List.modifyHead_cons] at hd
    simp [Cursor.leaveLoop, hd, hc, htally]

theorem inFunction (hp : Tracks made ts (.function :: bodies) p p' P) :
    Tracks made ts bodies (Reader.inFunction p) (Reader.inFunction p') P := by
  refine hp.between (fun c => ⟨rfl, rfl⟩) (fun c hc => ?_) fun c d hc hd => ?_
  · simp [Cursor.enterFunction, hc, Body.tally]
  · simp [Cursor.leaveFunction, hd, hc, Body.tally]

end bodies

theorem recovering (hp : Tracks made ts bodies p p' P) :
    Tracks made ts bodies (Reader.recovering p) (Reader.recovering p') fun o => ∀ a, o = some a → P a := by
  intro c hc
  have h := hp c hc
  unfold Reader.recovering
  generalize p c = r at h
  generalize p' c = r' at h
  cases h with
  | ok hd ha => exact .ok hd fun b hb => Option.some.inj hb ▸ ha
  | @error e d hd =>
    cases e with
    | reported => exact .ok (hd.trans d.leads_recover) nofun
    | stuck => exact .error hd
  | stopped hr hvalue hmade =>
    cases r' with
    | ok a d =>
      exact .stopped hr (fun o e ho b hb => by cases ho; exact Option.some.inj hb ▸ hvalue a d rfl) hmade
    | error e d =>
      cases e with
      | reported =>
        refine .stopped (Cursor.Leads.trans hr d.leads_recover) (fun o e ho b hb => ?_) (hmade.trans ?_)
        · cases ho
          cases hb
        · exact d.leads_recover.reports
      | stuck => exact .stopped hr nofun hmade

/-- A watched reader that stops where the condition fails, if the plain one has made the reports by then. -/
theorem stopUnless {holds : Cursor → Prop} (hp : Tracks made ts bodies p p' P)
    (hmade : ∀ c : Cursor, c.Stands ts bodies → ¬holds c → made <:+ (place (p' c)).reports) :
    Tracks made ts bodies (Reader.stopUnless holds >>= fun _ => p) p' P := by
  intro c hc
  have h := hp c hc
  by_cases hholds : holds c
  · have hgoes : Reader.stopUnless holds c = .ok () c := if_pos hholds
    rw [bind_ok hgoes]
    exact h
  · have hstops : Reader.stopUnless holds c = .error .stuck c := if_neg hholds
    rw [bind_error hstops]
    exact .stopped h.leads (fun a d ha => h.value ha) (hmade c hc hholds)

end Tracks

end LoxLang
