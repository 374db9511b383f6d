import LoxLang.Proofs.Stopping
import LoxLang.Tree.Grammar

namespace LoxLang

inductive Ended : List Token → Prop
  | last {t : Token} (ht : t.kind = .eof) : Ended [t]
  | more {t : Token} {ts : List Token} (ht : t.kind ≠ .eof) (h : Ended ts) : Ended (t :: ts)

structure Cursor.Whole (c : Cursor) : Prop where
  ended : Ended c.rest
  loops : c.loops ≠ []

/-- From one place to another over these tokens, with these reports. -/
structure Cursor.Moves (c c' : Cursor) (ts : List Token) (new : List Report) : Prop where
  rest : c.rest = ts ++ c'.rest
  before : c'.before = ts.reverse ++ c.before
  loops : c'.loops = c.loops
  reports : c'.reports = new ++ c.reports
  whole : c'.Whole

namespace Cursor

variable {c c' c'' : Cursor} {ts us : List Token} {new new' : List Report}

theorem Whole.refl (h : c.Whole) : c.Moves c [] [] := ⟨rfl, rfl, rfl, rfl, h⟩

theorem Moves.trans (h : c.Moves c' ts new) (h' : c'.Moves c'' us new') :
    c.Moves c'' (ts ++ us) (new' ++ new) where
  rest := by rw [h.rest, h'.rest, List.append_assoc]
  before := by rw [h'.before, h.before, List.reverse_append, List.append_assoc]
  loops := h'.loops.trans h.loops
  reports := by rw [h'.reports, h.reports, List.append_assoc]
  whole := h'.whole

theorem Moves.inLoop (h : c.Moves c' ts new) : c'.inLoop = c.inLoop := by
  rw [Cursor.inLoop, Cursor.inLoop, h.loops]

theorem Moves.length (h : c.Moves c' ts new) : ts.length + c'.rest.length = c.rest.length := by
  rw [h.rest, List.length_append]

theorem Moves.length_lt (h : c.Moves c' ts new) (hts : ts ≠ []) : c'.rest.length < c.rest.length := by
  have hl := h.length
  have hp := List.length_pos_iff.2 hts
  omega

theorem Whole.head (h : c.Whole) : ∃ t us, c.rest = t :: us := by
  obtain ⟨before, rest, loops, reports⟩ := c
  cases h.ended with
  | last ht => exact ⟨_, [], rfl⟩
  | more ht hts => exact ⟨_, _, rfl⟩

theorem Whole.step (h : c.Whole) {t : Token} (hr : c.rest = t :: us) (ht : t.kind ≠ .eof) :
    c.Moves { c with before := t :: c.before, rest := us } [t] [] where
  rest := hr
  before := rfl
  loops := rfl
  reports := rfl
  whole := by
    refine ⟨?_, h.loops⟩
    have he := h.ended
    rw [hr] at he
    cases he with
    | last hend => exact absurd hend ht
    | more _ hus => exact hus

end Cursor

namespace Reader

open Stopping Cursor

variable {α β : Type}

section primitives

variable {α : Type} {c : Cursor} {t : Token} {us : List Token}

theorem peek_bind (ht : c.rest = t :: us) (k : Token → Reader α) : (peek >>= k) c = k t c :=
  bind_ok (by simp [peek, ht])

theorem sees_bind (ht : c.rest = t :: us) (kind : Token.Kind) (k : Bool → Reader α) :
    (sees kind >>= k) c = k (t.kind ≠ .eof && t.kind = kind) c := by
  rw [sees, bind_assoc, peek_bind ht, Stopping.pure_bind]

theorem atEnd_bind (ht : c.rest = t :: us) (k : Bool → Reader α) :
    (Grammar.atEnd >>= k) c = k (t.kind = .eof) c := by
  rw [Grammar.atEnd, bind_assoc, peek_bind ht, Stopping.pure_bind]

end primitives

/-- What comes of an action on a place, where the flag says that it takes a token. -/
def Comes (c : Cursor) (moves : Bool) (Q : List Token → List Token → α → Prop) :
    EStateM.Result Abort Cursor α → Prop
  | .ok a c' => ∃ ts new, c.Moves c' ts new ∧ (moves = true → ts ≠ []) ∧ (new = [] → Q ts c'.rest a)
  | .error .reported c' => ∃ ts new, c.Moves c' ts new ∧ new ≠ []
  | .error .stuck _ => False

/-- In a loop or in none, and before no more tokens than that, a reader is not stuck; and the tokens it
takes, those after them and its value are so related, unless it makes a report. -/
def Reads (loop : Bool) (r : Nat) (moves : Bool) (p : Reader α)
    (Q : List Token → List Token → α → Prop) : Prop :=
  ∀ c : Cursor, c.Whole → c.inLoop = loop → c.rest.length ≤ r → Comes c moves Q (p c)

variable {loop : Bool} {r : Nat} {m w : Bool} {p : Reader α} {k : α → Reader β}
  {P R : List Token → List Token → α → Prop} {Q : List Token → List Token → β → Prop}

theorem Comes.mono {c : Cursor} {x : EStateM.Result Abort Cursor α} (h : Comes c m P x)
    (hm : w = true → m = true) (hQ : ∀ ts rest a, c.rest = ts ++ rest → P ts rest a → R ts rest a) :
    Comes c w R x := by
  match x, h with
  | .ok a c', ⟨ts, new, hmoves, hts, hP⟩ =>
    exact ⟨ts, new, hmoves, fun h => hts (hm h), fun h => hQ _ _ _ hmoves.rest (hP h)⟩
  | .error .reported c', h => exact h

theorem Comes.after {c c' : Cursor} {ts : List Token} {new : List Report}
    {x : EStateM.Result Abort Cursor β} (hmoves : c.Moves c' ts new) (hm : m = true → ts ≠ [])
    (h : Comes c' w (fun us rest b => new = [] → Q (ts ++ us) rest b) x) :
    Comes c (m || w) Q x := by
  match x, h with
  | .ok b c'', ⟨us, new', hmoves', hus, hQ⟩ =>
    refine ⟨ts ++ us, new' ++ new, hmoves.trans hmoves', fun h => ?_, fun h => ?_⟩
    · obtain h | h := Bool.or_eq_true_iff.1 h
      · exact List.append_ne_nil_of_left_ne_nil (hm h) us
      · exact List.append_ne_nil_of_right_ne_nil ts (hus h)
    · obtain ⟨h', h⟩ := List.append_eq_nil_iff.1 h
      exact hQ h' h
  | .error .reported c'', ⟨us, new', hmoves', hnew⟩ =>
    exact ⟨ts ++ us, new' ++ new, hmoves.trans hmoves', fun h => hnew (List.append_eq_nil_iff.1 h).1⟩

theorem Comes.bind {c : Cursor} (h : Comes c m P (p c))
    (hk : ∀ a c' ts new, c.Moves c' ts new → (m = true → ts ≠ []) →
      Comes c' w (fun us rest b => P ts (us ++ rest) a → Q (ts ++ us) rest b) (k a c')) :
    Comes c (m || w) Q ((p >>= k) c) := by
  match hpc : p c with
  | .ok a c' =>
    rw [hpc] at h
    obtain ⟨ts, new, hmoves, hts, hP⟩ := h
    rw [bind_ok hpc]
    exact ((hk a c' ts new hmoves hts).mono (w := w) id fun us rest b hrest hQ hnew =>
      hQ (hrest ▸ hP hnew)).after hmoves hts
  | .error .reported c' =>
    rw [hpc] at h
    rw [bind_error hpc]
    exact h
  | .error .stuck c' =>
    rw [hpc] at h
    exact h.elim

theorem Comes.step {c : Cursor} (hc : c.Whole) {t : Token} {us : List Token} (ht : c.rest = t :: us)
    (hend : t.kind ≠ .eof) {x : EStateM.Result Abort Cursor β}
    (h : Comes { c with before := t :: c.before, rest := us } false
      (fun us rest b => Q (t :: us) rest b) x) : Comes c m Q x :=
  ((h.mono (w := false) id fun _ _ _ _ hQ _ => hQ).after (m := true) (hc.step ht hend)
    (by simp)).mono (by simp) fun _ _ _ _ h => h

namespace Reads

theorem mono (h : Reads loop r m p P) (hQ : ∀ ts rest a, P ts rest a → R ts rest a) : Reads loop r m p R :=
  fun c hc hl hr => (h c hc hl hr).mono id fun ts rest a _ => hQ ts rest a

theorem weaken (h : Reads loop r true p P) : Reads loop r w p P :=
  fun c hc hl hr => (h c hc hl hr).mono (fun _ => rfl) fun _ _ _ _ hP => hP

theorem less (h : Reads loop r m p P) {r' : Nat} (hr : r' ≤ r) : Reads loop r' m p P :=
  fun c hc hl hr' => h c hc hl (Nat.le_trans hr' hr)

theorem zero : Reads loop 0 m p P := by
  intro c hc _ hr
  obtain ⟨t, us, ht⟩ := hc.head
  simp [ht] at hr

theorem pure {a : α} (h : ∀ rest, P [] rest a) : Reads loop r false (pure a) P :=
  fun c hc _ _ => ⟨[], [], hc.refl, by simp, fun _ => h c.rest⟩

theorem giveUp (t : Token) (complaint : Complaint) : Reads loop r m (giveUp t complaint) P := by
  intro c hc _ _
  exact ⟨[], [⟨.token t, complaint⟩], ⟨rfl, rfl, rfl, rfl, hc.ended, hc.loops⟩, by simp⟩

/-- After a report it does not matter what the tokens stand for. -/
theorem report (t : Token) (complaint : Complaint) {p : Reader β}
    (h : Reads loop r m p fun _ _ _ => True) :
    Reads loop r m (Reader.report t complaint >>= fun _ => p) Q := by
  intro c hc hl hr
  let c' : Cursor := { c with reports := ⟨.token t, complaint⟩ :: c.reports }
  have hmoves : c.Moves c' [] [⟨.token t, complaint⟩] := ⟨rfl, rfl, rfl, rfl, hc.ended, hc.loops⟩
  have hp := (h c' hmoves.whole hl hr).mono (w := m) id
    (R := fun us rest b => [(⟨.token t, complaint⟩ : Report)] = [] → Q ([] ++ us) rest b)
    fun _ _ _ _ _ hnew => by simp at hnew
  exact (hp.after (m := false) hmoves (by simp)).mono (by simp) fun _ _ _ _ h => h

theorem bind (hp : Reads loop r true p P)
    (hk : ∀ a r', r' < r → Reads loop r' false (k a) fun us rest b =>
      ∀ ts, P ts (us ++ rest) a → Q (ts ++ us) rest b) :
    Reads loop r m (p >>= k) Q := by
  intro c hc hl hr
  refine ((hp c hc hl hr).bind (w := false) fun a c' ts new hmoves hts => ?_).mono (by simp)
    fun _ _ _ _ h => h
  have hlt := Nat.lt_of_lt_of_le (hmoves.length_lt (hts rfl)) hr
  exact (hk a c'.rest.length hlt c' hmoves.whole (hmoves.inLoop.trans hl) (Nat.le_refl _)).mono id
    fun us rest b _ hQ => hQ ts

theorem bindStill (hp : Reads loop r false p P)
    (hk : ∀ a r', r' ≤ r → Reads loop r' m (k a) fun us rest b =>
      ∀ ts, P ts (us ++ rest) a → Q (ts ++ us) rest b) :
    Reads loop r m (p >>= k) Q := by
  intro c hc hl hr
  refine ((hp c hc hl hr).bind (w := m) fun a c' ts new hmoves _ => ?_).mono (by simp)
    fun _ _ _ _ h => h
  have hlen := hmoves.length
  exact (hk a c'.rest.length (by omega) c' hmoves.whole (hmoves.inLoop.trans hl)
    (Nat.le_refl _)).mono id fun us rest b _ hQ => hQ ts

theorem map (f : α → β) (hp : Reads loop r m p P) :
    Reads loop r m (f <$> p) fun ts rest b => ∃ a, b = f a ∧ P ts rest a := by
  intro c hc hl hr
  have h := hp c hc hl hr
  have hmap : (f <$> p) c = EStateM.map f p c := rfl
  rw [hmap, EStateM.map]
  match p c, h with
  | .ok a c', ⟨ts, new, hmoves, hts, hP⟩ => exact ⟨ts, new, hmoves, hts, fun h => ⟨a, rfl, hP h⟩⟩
  | .error .reported c', h => exact h

theorem take {test : Token.Kind → Bool} {k : Option Token → Reader β}
    (hsome : ∀ t r', r' < r → t.kind ≠ .eof → test t.kind = true →
      Reads loop r' false (k (some t)) fun us rest b => Q (t :: us) rest b)
    (hnone : Reads loop r m (k none) fun us rest b =>
      (∀ t vs, us ++ rest = t :: vs → t.kind ≠ .eof → test t.kind = false) → Q us rest b) :
    Reads loop r m (take? test >>= k) Q := by
  intro c hc hl hr
  obtain ⟨t, us, ht⟩ := hc.head
  by_cases h : t.kind ≠ .eof ∧ test t.kind = true
  · have htake : take? test c = .ok (some t) { c with before := t :: c.before, rest := us } := by
      simp [take?, ht, h.1, h.2]
    rw [bind_ok htake]
    exact Comes.step hc ht h.1 (hsome t us.length (by simp [ht] at hr; omega) h.1 h.2 _
      (hc.step ht h.1).whole hl (Nat.le_refl _))
  · have htake : take? test c = .ok none c := by
      simp only [take?, ht]
      rw [if_neg h]
    rw [bind_ok htake]
    refine (hnone c hc hl hr).mono id fun vs rest b hrest hQ => hQ fun u ws hu hne => ?_
    rw [← hrest, ht] at hu
    obtain ⟨rfl, rfl⟩ := List.cons.inj hu
    simpa [hne] using h

theorem peek {k : Token → Reader β} (h : ∀ t, Reads loop r m (k t) Q) :
    Reads loop r m (Reader.peek >>= k) Q := by
  intro c hc hl hr
  obtain ⟨t, us, ht⟩ := hc.head
  rw [peek_bind ht]
  exact h t c hc hl hr

theorem expect {kind : Token.Kind} {what : String} {k : Token → Reader β}
    (h : ∀ t r', r' < r → t.kind = kind →
      Reads loop r' false (k t) fun us rest b => Q (t :: us) rest b) :
    Reads loop r m (expect kind what >>= k) Q := by
  rw [Reader.expect, accept, bind_assoc]
  refine take (fun t r' hr _ ht => ?_) ?_
  · exact h t r' hr (by simpa using ht)
  · change Reads loop r m ((Reader.peek >>= fun t => Reader.giveUp t (.expected what)) >>= k) _
    rw [bind_assoc]
    exact peek fun t => giveUp t (.expected what)

theorem token {kind : Token.Kind} {what : String} :
    Reads loop r true (Reader.expect kind what) fun ts _ t => ts = [t] ∧ t.kind = kind := by
  rw [← bind_pure (Reader.expect kind what)]
  exact expect fun t _ _ ht => .pure fun _ => ⟨rfl, ht⟩

theorem sees {kind : Token.Kind} {k : Bool → Reader β} (h : ∀ b, Reads loop r m (k b) Q) :
    Reads loop r m (Reader.sees kind >>= k) Q := by
  rw [Reader.sees, bind_assoc]
  exact peek fun t => h _

theorem leftOut {kind : Token.Kind} {a : α} (ha : ∀ rest, P [] rest a) (hp : Reads loop r true p P)
    (hk : ∀ a r', r' ≤ r → Reads loop r' m (k a) fun us rest b =>
      ∀ ts, P ts (us ++ rest) a → Q (ts ++ us) rest b) :
    Reads loop r m (Reader.sees kind >>= fun b => if b = true then Pure.pure a >>= k else p >>= k) Q := by
  refine sees fun b => ?_
  cases b with
  | true => exact (Reads.pure (P := P) ha).bindStill hk
  | false => exact hp.weaken.bindStill hk

theorem atEnd {k : Bool → Reader β} (h : ∀ b, Reads loop r m (k b) Q) :
    Reads loop r m (Grammar.atEnd >>= k) Q := by
  rw [Grammar.atEnd, bind_assoc]
  exact peek fun t => h _

theorem asking {yes no : Reader β} (h : Reads loop r m (if loop = true then yes else no) Q) :
    Reads loop r m ((get : Reader Cursor) >>= fun c => if c.inLoop = true then yes else no) Q := by
  intro c hc hl hr
  rw [get_bind, hl]
  exact h c hc hl hr

theorem between {enter leave : Cursor → Cursor} {inner : Bool}
    (henter : ∀ c : Cursor, (enter c).rest = c.rest ∧ (enter c).before = c.before ∧
      (enter c).reports = c.reports)
    (hinner : ∀ c : Cursor, c.Whole → c.inLoop = loop → (enter c).inLoop = inner ∧ (enter c).loops ≠ [])
    (hleave : ∀ c c' : Cursor, c'.loops = (enter c).loops → leave c' = { c' with loops := c.loops })
    (hp : Reads inner r m p P) : Reads loop r m (between enter leave p) P := by
  intro c hc hl hr
  obtain ⟨hrest, hbefore, hreports⟩ := henter c
  obtain ⟨hin, hloops⟩ := hinner c hc hl
  have back : ∀ {c' : Cursor} {ts : List Token} {new : List Report}, (enter c).Moves c' ts new →
      c.Moves (leave c') ts new := by
    intro c' ts new h
    rw [hleave c c' h.loops]
    exact ⟨hrest ▸ h.rest, hbefore ▸ h.before, rfl, hreports ▸ h.reports, h.whole.ended, hc.loops⟩
  have h := hp (enter c) ⟨hrest ▸ hc.ended, hloops⟩ hin (hrest ▸ hr)
  rw [Reader.between]
  match p (enter c), h with
  | .ok a c', ⟨ts, new, hmoves, hts, hP⟩ =>
    refine ⟨ts, new, back hmoves, hts, fun hnew => ?_⟩
    rw [hleave c c' hmoves.loops]
    exact hP hnew
  | .error .reported c', ⟨ts, new, hmoves, hnew⟩ => exact ⟨ts, new, back hmoves, hnew⟩

theorem namedFunction {k : Option Token → Reader β} {other : Reader β}
    (hyes : ∀ word r', r' < r → word.kind = .kwFun →
      Reads loop r' false (k (some word)) fun us rest b => Q (word :: us) rest b)
    (hno : Reads loop r m other Q) :
    Reads loop r m (Grammar.seesNamedFunction >>= fun b =>
      if b = true then accept .kwFun >>= k else other) Q := by
  intro c hc hl hr
  obtain ⟨word, us, ht⟩ := hc.head
  have hsees : ∃ b, Grammar.seesNamedFunction c = .ok b c ∧ (b = true → word.kind = .kwFun) := by
    rw [Grammar.seesNamedFunction, get_bind, ht]
    cases us with
    | nil => exact ⟨false, rfl, by simp⟩
    | cons second us => exact ⟨_, rfl, fun h => by simp_all⟩
  obtain ⟨b, hb, hword⟩ := hsees
  rw [bind_ok hb]
  cases b with
  | true =>
    have hend : word.kind ≠ .eof := by simp [hword rfl]
    have htake : accept .kwFun c = .ok (some word) { c with before := word :: c.before, rest := us } := by
      simp [accept, take?, ht, hword rfl]
    rw [if_pos rfl, bind_ok htake]
    exact Comes.step hc ht hend (hyes word us.length (by simp [ht] at hr; omega) (hword rfl) _
      (hc.step ht hend).whole hl (Nat.le_refl _))
  | false => exact hno c hc hl hr

theorem inLoop (hp : Reads true r m p P) : Reads loop r m (inLoop p) P := by
  refine between (fun c => ?_) (fun c hc _ => ?_) (fun c c' h => ?_) hp
  · unfold Cursor.enterLoop
    split <;> simp
  · obtain ⟨before, rest, _ | ⟨d, ds⟩, reports⟩ := c
    · exact absurd rfl hc.loops
    · simp [Cursor.enterLoop, Cursor.inLoop]
  · obtain ⟨before, rest, _ | ⟨d, ds⟩, reports⟩ := c <;> obtain ⟨before', rest', loops, reports'⟩ := c' <;>
      simp_all [Cursor.enterLoop, Cursor.leaveLoop]

theorem inFunction (hp : Reads false r m p P) : Reads loop r m (inFunction p) P :=
  between (fun _ => ⟨rfl, rfl, rfl⟩) (fun _ _ _ => ⟨rfl, by simp [Cursor.enterFunction]⟩)
    (fun c c' h => by simp [Cursor.leaveFunction, h, Cursor.enterFunction]) hp

theorem bindPrevious {k : α → Token → Reader β} (hp : Reads loop r true p P)
    (hk : ∀ a last r', r' < r → Reads loop r' false (k a last) fun us rest b =>
      ∀ ts, P (ts ++ [last]) (us ++ rest) a → Q (ts ++ [last] ++ us) rest b) :
    Reads loop r m (p >>= fun a => previous >>= k a) Q := by
  intro c hc hl hr
  refine ((hp c hc hl hr).bind (w := false) (k := fun a => previous >>= k a)
    fun a c' ts new hmoves hts => ?_).mono (by simp) fun _ _ _ _ h => h
  obtain ⟨ts, last, rfl⟩ := (List.eq_nil_or_concat ts).resolve_left (hts rfl)
  rw [List.concat_eq_append] at hmoves hts ⊢
  have hprevious : previous c' = .ok last c' := by simp [previous, hmoves.before]
  have hlt := Nat.lt_of_lt_of_le (hmoves.length_lt (hts rfl)) hr
  rw [bind_ok hprevious]
  exact (hk a last c'.rest.length hlt c' hmoves.whole (hmoves.inLoop.trans hl) (Nat.le_refl _)).mono
    id fun us rest b _ hQ => hQ ts

end Reads

theorem skip_moves {rest : List Token} (h : Ended rest) (before : List Token) :
    ∃ ts, rest = ts ++ (skip before rest).2 ∧ (skip before rest).1 = ts.reverse ++ before ∧
      Ended (skip before rest).2 := by
  induction h generalizing before with
  | @last t ht => exact ⟨[], by simp [skip, ht, Ended.last]⟩
  | @more t us ht hus ih =>
    rw [skip]
    split
    · exact ⟨[], rfl, rfl, .more ht hus⟩
    · obtain ⟨ts, hrest, hbefore, hended⟩ := ih (t :: before)
      exact ⟨t :: ts, by rw [List.cons_append, ← hrest], by simp [hbefore], hended⟩

/-- Reading goes on after an error behind the token at it, unless that is the end. -/
theorem recover_moves {c : Cursor} (h : c.Whole) :
    ∃ ts, c.Moves c.recover ts [] ∧ (ts = [] → ∃ t us, c.rest = t :: us ∧ t.kind = .eof) := by
  obtain ⟨t, us, ht⟩ := h.head
  by_cases hend : t.kind = .eof
  · have hrecover : c.recover = c := by
      obtain ⟨before, rest, loops, reports⟩ := c
      simp_all [recover]
    exact ⟨[], hrecover.symm ▸ h.refl, fun _ => ⟨t, us, ht, hend⟩⟩
  · have hstep := h.step ht hend
    obtain ⟨ts, hrest, hbefore, hended⟩ := skip_moves hstep.whole.ended (t :: c.before)
    have hrecover : c.recover =
        { c with before := (skip (t :: c.before) us).1, rest := (skip (t :: c.before) us).2 } := by
      simp [recover, ht, hend]
    refine ⟨t :: ts, ?_, by simp⟩
    rw [hrecover]
    exact ⟨by rw [ht, List.cons_append, ← hrest], by simp [hbefore], rfl, rfl, hended, h.loops⟩

theorem Comes.recovering {c : Cursor} (hend : ∀ t us, c.rest = t :: us → t.kind ≠ .eof)
    (h : Comes c true P (p c)) :
    Comes c true (fun ts rest o => ∃ a, o = some a ∧ P ts rest a) (recovering p c) := by
  rw [Reader.recovering]
  match p c, h with
  | .ok a c', ⟨ts, new, hmoves, hts, hP⟩ => exact ⟨ts, new, hmoves, hts, fun h => ⟨a, rfl, hP h⟩⟩
  | .error .reported c', ⟨ts, new, hmoves, hnew⟩ =>
    obtain ⟨us, hmoves', hus⟩ := recover_moves hmoves.whole
    refine ⟨ts ++ us, new, by simpa using hmoves.trans hmoves', fun _ hnil => ?_, fun h => absurd h hnew⟩
    obtain ⟨rfl, rfl⟩ := List.append_eq_nil_iff.1 hnil
    obtain ⟨t, vs, ht, hkind⟩ := hus rfl
    exact hend t vs (hmoves.rest.trans ht) hkind

theorem Reads.recovering (h : Reads loop r true p P) {c : Cursor} (hc : c.Whole) (hl : c.inLoop = loop)
    (hr : c.rest.length ≤ r) (hend : ∀ t us, c.rest = t :: us → t.kind ≠ .eof) :
    Comes c true (fun ts rest o => ∃ a, o = some a ∧ P ts rest a) (Reader.recovering p c) :=
  (h c hc hl hr).recovering hend

end Reader

end LoxLang
