import LoxLang.Proofs.Reading.Reads

namespace LoxLang

def Next (P : Token.Kind → Prop) (ts : List Token) : Prop := ∃ t us, ts = t :: us ∧ P t.kind

theorem Next.mono {P P' : Token.Kind → Prop} {ts : List Token} (h : Next P ts)
    (hP : ∀ kind, P kind → P' kind) : Next P' ts := by
  obtain ⟨t, us, hts, ht⟩ := h
  exact ⟨t, us, hts, hP _ ht⟩

theorem Next.append {P : Token.Kind → Prop} {ts : List Token} (h : Next P ts) (us : List Token) :
    Next P (ts ++ us) := by
  obtain ⟨t, ws, rfl, ht⟩ := h
  exact ⟨t, ws ++ us, rfl, ht⟩

theorem Next.cons {P : Token.Kind → Prop} {t : Token} (h : P t.kind) (ts : List Token) :
    Next P (t :: ts) := ⟨t, ts, rfl, h⟩

namespace Reader

open Stopping

variable {α β : Type}

/-- In a loop or in none, the reader takes these tokens before those, and gives this value. -/
def Accepts (loop : Bool) (p : Reader α) (ts rest : List Token) (a : α) : Prop :=
  ∀ before loops reports, loops ≠ [] → decide (0 < loops.headD 0) = loop →
    p ⟨before, ts ++ rest, loops, reports⟩ = .ok a ⟨ts.reverse ++ before, rest, loops, reports⟩

namespace Accepts

variable {loop : Bool} {p : Reader α} {k : α → Reader β} {ts us rest : List Token} {a : α} {b : β}

theorem pure : Accepts loop (pure a) [] rest a := fun _ _ _ _ _ => rfl

theorem bind (hp : Accepts loop p ts (us ++ rest) a) (hk : Accepts loop (k a) us rest b) :
    Accepts loop (p >>= k) (ts ++ us) rest b := by
  intro before loops reports hloops hl
  rw [List.append_assoc, bind_ok (hp before loops reports hloops hl), hk _ _ _ hloops hl]
  simp

theorem bindPure (hp : Accepts loop p ts rest a) (hk : Accepts loop (k a) [] rest b) :
    Accepts loop (p >>= k) ts rest b := by
  have h : Accepts loop (p >>= k) (ts ++ []) rest b := bind hp hk
  simpa using h

theorem bindNone (hp : Accepts loop p [] (us ++ rest) a) (hk : Accepts loop (k a) us rest b) :
    Accepts loop (p >>= k) us rest b := by
  have h : Accepts loop (p >>= k) ([] ++ us) rest b := bind hp hk
  simpa using h

theorem map (f : α → β) (hp : Accepts loop p ts rest a) : Accepts loop (f <$> p) ts rest (f a) := by
  intro before loops reports hloops hl
  have hmap : (f <$> p) ⟨before, ts ++ rest, loops, reports⟩ =
    EStateM.map f p ⟨before, ts ++ rest, loops, reports⟩ := rfl
  rw [hmap, EStateM.map, hp before loops reports hloops hl]

theorem take {test : Token.Kind → Bool} {t : Token} {k : Option Token → Reader β}
    (hend : t.kind ≠ .eof) (ht : test t.kind = true) (hk : Accepts loop (k (some t)) us rest b) :
    Accepts loop (take? test >>= k) (t :: us) rest b := by
  intro before loops reports hloops hl
  have htake : take? test ⟨before, t :: us ++ rest, loops, reports⟩ =
      .ok (some t) ⟨t :: before, us ++ rest, loops, reports⟩ := by
    simp [take?, hend, ht]
  rw [bind_ok htake, hk _ _ _ hloops hl]
  simp

theorem skip {test : Token.Kind → Bool} {k : Option Token → Reader β}
    (hnext : Next (fun kind => test kind = false) (us ++ rest))
    (hk : Accepts loop (k none) us rest b) : Accepts loop (take? test >>= k) us rest b := by
  intro before loops reports hloops hl
  obtain ⟨t, ws, hus, ht⟩ := hnext
  have htake : take? test ⟨before, us ++ rest, loops, reports⟩ =
      .ok none ⟨before, us ++ rest, loops, reports⟩ := by
    simp [take?, hus, ht]
  rw [bind_ok htake, hk _ _ _ hloops hl]

theorem expect {kind : Token.Kind} {what : String} {t : Token} {k : Token → Reader β}
    (ht : t.kind = kind) (hend : kind ≠ .eof) (hk : Accepts loop (k t) us rest b) :
    Accepts loop (expect kind what >>= k) (t :: us) rest b := by
  rw [Reader.expect, bind_assoc]
  exact take (ht.symm ▸ hend) (by simpa using ht) hk

theorem token {kind : Token.Kind} {what : String} {t : Token} (ht : t.kind = kind) (hend : kind ≠ .eof) :
    Accepts loop (Reader.expect kind what) [t] rest t := by
  rw [← bind_pure (Reader.expect kind what)]
  exact expect ht hend pure

theorem sees {kind : Token.Kind} {k : Bool → Reader β} (hnext : Next (· = kind) (us ++ rest))
    (hend : kind ≠ .eof) (hk : Accepts loop (k true) us rest b) :
    Accepts loop (sees kind >>= k) us rest b := by
  intro before loops reports hloops hl
  obtain ⟨t, ws, hus, ht⟩ := hnext
  rw [sees_bind (c := ⟨before, us ++ rest, loops, reports⟩) hus]
  simpa [ht, hend] using hk before loops reports hloops hl

theorem seesOther {kind : Token.Kind} {k : Bool → Reader β} (hnext : Next (· ≠ kind) (us ++ rest))
    (hk : Accepts loop (k false) us rest b) : Accepts loop (Reader.sees kind >>= k) us rest b := by
  intro before loops reports hloops hl
  obtain ⟨t, ws, hus, ht⟩ := hnext
  rw [sees_bind (c := ⟨before, us ++ rest, loops, reports⟩) hus]
  simpa [ht] using hk before loops reports hloops hl

theorem leftOut {kind : Token.Kind} {a v : α} (hend : kind ≠ .eof)
    (h : (ts = [] ∧ v = a ∧ Next (· = kind) (us ++ rest)) ∨
      (Accepts loop p ts (us ++ rest) v ∧ Next (· ≠ kind) ts))
    (hk : Accepts loop (k v) us rest b) :
    Accepts loop (Reader.sees kind >>= fun b => if b = true then Pure.pure a >>= k else p >>= k)
      (ts ++ us) rest b := by
  obtain ⟨rfl, rfl, hnext⟩ | ⟨hp, hnext⟩ := h
  · exact sees hnext hend (bindNone pure hk)
  · exact seesOther ((hnext.append us).append rest) (bind hp hk)

theorem closing {kind : Token.Kind} {yes no : Reader β} (hnext : Next (· = kind) (us ++ rest))
    (h : Accepts loop yes us rest b) :
    Accepts loop (Reader.sees kind >>= fun seen => Grammar.atEnd >>= fun ended =>
      if (seen || ended) = true then yes else no) us rest b := by
  intro before loops reports hloops hl
  obtain ⟨t, ws, hus, ht⟩ := hnext
  rw [sees_bind (c := ⟨before, us ++ rest, loops, reports⟩) hus, atEnd_bind hus, if_pos]
  · exact h before loops reports hloops hl
  · by_cases hend : kind = .eof <;> simp [ht, hend]

theorem beforeClosing {kind : Token.Kind} {yes no : Reader β}
    (hnext : Next (fun other => other ≠ .eof ∧ other ≠ kind) (us ++ rest))
    (h : Accepts loop no us rest b) :
    Accepts loop (Reader.sees kind >>= fun seen => Grammar.atEnd >>= fun ended =>
      if (seen || ended) = true then yes else no) us rest b := by
  intro before loops reports hloops hl
  obtain ⟨t, ws, hus, ht⟩ := hnext
  rw [sees_bind (c := ⟨before, us ++ rest, loops, reports⟩) hus, atEnd_bind hus, if_neg]
  · exact h before loops reports hloops hl
  · simp [ht]

theorem named {word name : Token} {k : Bool → Reader β} (hword : word.kind = .kwFun)
    (hname : name.kind = .identifier) (hk : Accepts loop (k true) (word :: name :: us) rest b) :
    Accepts loop (Grammar.seesNamedFunction >>= k) (word :: name :: us) rest b := by
  intro before loops reports hloops hl
  have hsees : Grammar.seesNamedFunction ⟨before, word :: name :: us ++ rest, loops, reports⟩ =
      .ok true ⟨before, word :: name :: us ++ rest, loops, reports⟩ := by
    simp [Grammar.seesNamedFunction, get_bind, pure_apply, hword, hname]
  rw [bind_ok hsees]
  exact hk before loops reports hloops hl

theorem unnamed {k : Bool → Reader β} {t : Token} (ht : t.kind = .kwFun → Next (· = .leftParen) us)
    (hk : Accepts loop (k false) (t :: us) rest b) :
    Accepts loop (Grammar.seesNamedFunction >>= k) (t :: us) rest b := by
  intro before loops reports hloops hl
  have hsees : Grammar.seesNamedFunction ⟨before, t :: us ++ rest, loops, reports⟩ =
      .ok false ⟨before, t :: us ++ rest, loops, reports⟩ := by
    rw [Grammar.seesNamedFunction, get_bind]
    by_cases hfun : t.kind = .kwFun
    · obtain ⟨u, ws, rfl, hu⟩ := ht hfun
      simp [pure_apply, hu]
    · cases hws : us ++ rest <;> simp [hws, pure_apply, hfun]
  rw [bind_ok hsees]
  exact hk before loops reports hloops hl

theorem bindPrevious {last : Token} {k : α → Token → Reader β}
    (hp : Accepts loop p (ts ++ [last]) (us ++ rest) a) (hk : Accepts loop (k a last) us rest b) :
    Accepts loop (p >>= fun a => previous >>= k a) (ts ++ [last] ++ us) rest b := by
  intro before loops reports hloops hl
  have hprevious : previous ⟨(ts ++ [last]).reverse ++ before, us ++ rest, loops, reports⟩ =
      .ok last ⟨(ts ++ [last]).reverse ++ before, us ++ rest, loops, reports⟩ := by
    simp [previous]
  rw [List.append_assoc (ts ++ [last]), bind_ok (hp before loops reports hloops hl), bind_ok hprevious,
    hk _ _ _ hloops hl]
  simp

theorem asking {yes no : Reader β} (h : Accepts loop (if loop = true then yes else no) ts rest b) :
    Accepts loop ((get : Reader Cursor) >>= fun c => if c.inLoop = true then yes else no) ts rest b := by
  intro before loops reports hloops hl
  rw [get_bind, Cursor.inLoop, hl]
  exact h before loops reports hloops hl

theorem inLoop (hp : Accepts true p ts rest a) : Accepts loop (inLoop p) ts rest a := by
  intro before loops reports hloops hl
  cases loops with
  | nil => exact absurd rfl hloops
  | cons d ds =>
    have h := hp before ((d + 1) :: ds) reports (by simp) (by simp)
    simp [Reader.inLoop, between, Cursor.enterLoop, h, Cursor.leaveLoop]

theorem inFunction (hp : Accepts false p ts rest a) : Accepts loop (inFunction p) ts rest a := by
  intro before loops reports hloops hl
  have h := hp before (0 :: loops) reports (by simp) (by simp)
  simp [Reader.inFunction, between, Cursor.enterFunction, h, Cursor.leaveFunction]

theorem recovering (hp : Accepts loop p ts rest a) : Accepts loop (recovering p) ts rest (some a) := by
  intro before loops reports hloops hl
  rw [Reader.recovering, hp before loops reports hloops hl]

end Accepts

end Reader

end LoxLang
