import LoxLang.Proofs.Reading.Deeper
import LoxLang.Proofs.Reading.Soundness

namespace LoxLang

open Reader

namespace Cursor

/-- Reading may start again between these two tokens. -/
def RestartsAt (last next : Token) : Prop :=
  next.kind = .eof ∨ last.kind = .semicolon ∨ startsStatement next.kind = true

/-- From the token at an error to where reading starts again: the end if the error is there, and else the
first place behind the token where it may. -/
def Restarts (d d' : Cursor) : Prop :=
  ∃ at_error later, d.rest = at_error :: later ∧
    (at_error.kind = .eof → d' = d) ∧
    (at_error.kind ≠ .eof → ∃ i last next, d'.rest = later.drop i ∧ d.rest[i]? = some last ∧
      later[i]? = some next ∧ RestartsAt last next ∧
      ∀ j < i, ∀ last next, d.rest[j]? = some last → later[j]? = some next → ¬ RestartsAt last next)

theorem skip_restarts {rest : List Token} (h : Ended rest) (last : Token) (before : List Token) :
    ∃ i passed next, (skip (last :: before) rest).2 = rest.drop i ∧ (last :: rest)[i]? = some passed ∧
      rest[i]? = some next ∧ RestartsAt passed next ∧
      ∀ j < i, ∀ passed next, (last :: rest)[j]? = some passed → rest[j]? = some next →
        ¬ RestartsAt passed next := by
  induction h generalizing last before with
  | @last t ht => exact ⟨0, last, t, by simp [skip, ht], rfl, rfl, .inl ht, by simp⟩
  | @more t us ht hus ih =>
    have hhead : ((last :: before).head?.map Token.kind = some .semicolon) ↔ last.kind = .semicolon := by simp
    by_cases hstop : RestartsAt last t
    · refine ⟨0, last, t, ?_, rfl, rfl, hstop, by simp⟩
      rw [skip, if_pos (by rwa [hhead])]
      rfl
    · obtain ⟨i, passed, next, hskip, hpassed, hnext, hrestarts, hfirst⟩ := ih t (last :: before)
      refine ⟨i + 1, passed, next, ?_, hpassed, hnext, hrestarts, fun j hj => ?_⟩
      · rw [skip, if_neg (by rwa [hhead]), hskip]
        rfl
      · cases j with
        | zero =>
          rintro passed next hpassed hnext
          obtain rfl := Option.some.inj hpassed
          obtain rfl := Option.some.inj hnext
          exact hstop
        | succ j => exact hfirst j (Nat.lt_of_succ_lt_succ hj)

theorem recover_restarts {d : Cursor} (h : d.Whole) : d.Restarts d.recover := by
  obtain ⟨t, us, ht⟩ := h.head
  obtain ⟨before, rest, loops, reports⟩ := d
  obtain rfl : rest = t :: us := ht
  refine ⟨t, us, rfl, fun hend => by simp [recover, hend], fun hend => ?_⟩
  have hrecover : (Cursor.recover ⟨before, t :: us, loops, reports⟩).rest = (skip (t :: before) us).2 := by
    simp [recover, hend]
  rw [hrecover]
  exact skip_restarts (h.step rfl hend).whole.ended t before

end Cursor

namespace Reader

def attempt : Nat → Reader Stmt
  | 0 => stuck
  | n + 1 => Grammar.attempt n (expression n) (statement n) (block n)

theorem declaration_eq (n : Nat) : declaration n = recovering (attempt n) := by
  cases n <;> rfl

theorem attempt_comes {n : Nat} {c : Cursor} (hc : c.Whole) (hn : 8 * c.rest.length + 5 ≤ n) :
    Comes c true (fun ts _ t => Phrase.Declaration c.inLoop ts t) (attempt n c) := by
  cases n with
  | zero => omega
  | succ n =>
    have take := Grammar.readers_take n
    exact Grammar.attempt_reads (fun r' _ => (take c.inLoop r').2.2.1 (by omega))
      (fun r' _ => (take c.inLoop r').2.2.2.1 (by omega)) (fun r' _ => (take false r').2.2.2.2.2 (by omega))
      (r := c.rest.length) (by omega) c hc rfl (Nat.le_refl _)

theorem attempt_outlasts (m : Cursor.Move) {n n' : Nat} (h : n ≤ n') :
    Outlasts m (Stmt.reline m.lines) (attempt n) (attempt n') := by
  cases n with
  | zero => exact .stuck
  | succ n =>
    obtain ⟨k, rfl⟩ := Nat.exists_eq_add_of_lt h
    have hn : n ≤ n + k := Nat.le_add_right n k
    have hd := deeper m hn
    exact Grammar.attempt_outlasts hd.block hn hd.expression hd.statement

theorem attempt_comes_unless_stuck (n : Nat) {c : Cursor} (hc : c.Whole)
    (hstuck : ∀ d, attempt n c ≠ .error .stuck d) :
    Comes c true (fun ts _ t => Phrase.Declaration c.inLoop ts t) (attempt n c) := by
  rw [← (attempt_outlasts {} (Nat.le_max_left n (8 * c.rest.length + 5))).eq Stmt.reline_id hstuck]
  exact attempt_comes hc (Nat.le_max_right n (8 * c.rest.length + 5))

section recovering

variable {α : Type} {p : Reader α} {c c' : Cursor} {m : Bool} {P : List Token → List Token → α → Prop}

theorem not_stuck_of_recovering {o : Option α} (h : recovering p c = .ok o c') (d : Cursor) :
    p c ≠ .error .stuck d := by
  intro hp
  rw [recovering, hp] at h
  cases h

theorem Comes.moves_of_recovering {o : Option α} (h : Comes c m P (p c)) (ho : Reader.recovering p c = .ok o c') :
    ∃ us new, c.Moves c' us new := by
  rw [Reader.recovering] at ho
  generalize p c = r at h ho
  cases r with
  | ok a d =>
    obtain ⟨us, new, hm, -⟩ := h
    cases ho
    exact ⟨us, new, hm⟩
  | error e d =>
    cases e with
    | reported =>
      obtain ⟨us, new, hm, -⟩ := h
      obtain ⟨vs, hm', -⟩ := recover_moves hm.whole
      cases ho
      exact ⟨us ++ vs, [] ++ new, hm.trans hm'⟩
    | stuck => exact h.elim

end recovering

end Reader

section places

variable {c c' : Cursor} {ts us : List Token} {new : List Report}

theorem Ended.of_append (h : Ended (us ++ ts)) (hts : ts ≠ []) : Ended ts := by
  induction us with
  | nil => exact h
  | cons u us ih =>
    rw [List.cons_append] at h
    generalize hvs : us ++ ts = vs at h ih
    cases h with
    | last => exact absurd (List.append_eq_nil_iff.1 hvs).2 hts
    | more _ h => exact ih h

/-- The place is in these tokens, in the loops of the top level or of a function. -/
structure Cursor.In (ts : List Token) (c : Cursor) : Prop where
  tokens : c.before.reverse ++ c.rest = ts
  inside : c.rest ≠ []
  loops : c.loops ≠ []

theorem Cursor.In.whole (h : c.In ts) (hts : Ended ts) : c.Whole :=
  ⟨(h.tokens ▸ hts).of_append h.inside, h.loops⟩

theorem Cursor.Moves.stays (hm : c.Moves c' us new) (h : c.In ts) : c'.In ts where
  tokens := by rw [← h.tokens, hm.before, hm.rest, List.reverse_append, List.reverse_reverse, List.append_assoc]
  inside := by
    obtain ⟨t, vs, ht⟩ := hm.whole.head
    simp [ht]
  loops := hm.whole.loops

/-- What is so of a call that reads a declaration at a place in these tokens. -/
structure Reader.Advances (ts : List Token) (n : Nat) (c : Cursor) : Prop where
  ends : depthPerToken * (c.rest.length + 1) ≤ n → ∃ o c', declaration n c = .ok o c'
  catches : ∀ d, declaration n c ≠ .error .reported d
  leaves : ∀ o c', declaration n c = .ok o c' → c'.In ts ∧ c'.loops = c.loops
  further : (∀ t us, c.rest = t :: us → t.kind ≠ .eof) → ∀ o c', declaration n c = .ok o c' →
    c.before.length < c'.before.length
  recovers : ∀ d, attempt n c = .error .reported d → d.In ts ∧ d.loops = c.loops ∧
    ∃ c', declaration n c = .ok none c' ∧ d.Restarts c'

theorem Reader.declaration_advances (hts : Ended ts) (h : c.In ts) (n : Nat) : Advances ts n c := by
  have hc := h.whole hts
  have hcomes := attempt_comes_unless_stuck n hc
  have hdeclaration := declaration_eq n
  refine ⟨fun hn => ?_, fun d => ?_, fun o c' ho => ?_, fun hend o c' ho => ?_, fun d hd => ?_⟩
  · have hcomes := attempt_comes hc (n := n) (by simp only [depthPerToken] at hn; omega)
    rw [hdeclaration, recovering]
    generalize attempt n c = r at hcomes
    cases r with
    | ok t d => exact ⟨some t, d, rfl⟩
    | error e d =>
      cases e with
      | reported => exact ⟨none, d.recover, rfl⟩
      | stuck => exact hcomes.elim
  · rw [hdeclaration]
    exact recovering_ne _ c d
  · rw [hdeclaration] at ho
    obtain ⟨us, new, hm⟩ := Comes.moves_of_recovering (hcomes (not_stuck_of_recovering ho)) ho
    exact ⟨hm.stays h, hm.loops⟩
  · rw [hdeclaration] at ho
    have htakes := Comes.recovering hend (hcomes (not_stuck_of_recovering ho))
    rw [ho] at htakes
    obtain ⟨us, new, hm, hus, -⟩ := htakes
    have hpos := List.length_pos_iff.2 (hus rfl)
    rw [hm.before, List.length_append, List.length_reverse]
    omega
  · have hcomes := hcomes fun d' hd' => by simp [hd] at hd'
    rw [hd] at hcomes
    obtain ⟨us, new, hm, -⟩ := hcomes
    refine ⟨hm.stays h, hm.loops, d.recover, ?_, d.recover_restarts hm.whole⟩
    rw [hdeclaration, recovering, hd]

end places

theorem Grammar.declarations_stops {closing : Token.Kind} {declaration : Reader (Option Stmt)} {n : Nat}
    {c c' : Cursor} {ss : List Stmt} (h : declarations closing declaration n c = .ok ss c') :
    ∃ t us, c'.rest = t :: us ∧ (t.kind = .eof ∨ t.kind = closing) := by
  induction n generalizing c ss with
  | zero => cases h
  | succ n ih =>
    obtain ⟨before, _ | ⟨t, us⟩, loops, reports⟩ := c
    · cases h
    · rw [declarations, sees_bind rfl, atEnd_bind rfl] at h
      split at h
      case isTrue hstop =>
        cases h
        refine ⟨t, us, rfl, ?_⟩
        by_cases hend : t.kind = .eof
        · exact .inl hend
        · exact .inr (by simpa [hend] using hstop)
      case isFalse =>
        obtain ⟨o, d, hd⟩ : ∃ o d, declaration ⟨before, t :: us, loops, reports⟩ = .ok o d := by
          cases hx : declaration ⟨before, t :: us, loops, reports⟩ with
          | ok o d => exact ⟨o, d, rfl⟩
          | error e d =>
            rw [Stopping.bind_error hx] at h
            cases h
        rw [Stopping.bind_ok hd] at h
        cases hx : declarations closing declaration n d with
        | ok others d' =>
          rw [Stopping.bind_ok hx] at h
          cases h
          exact ih hx
        | error e d' =>
          rw [Stopping.bind_error hx] at h
          cases h

theorem Reader.program_ends {ts : List Token} (hts : Ended ts) : ∃ ss c last,
    Reader.program (depthPerToken * (ts.length + 1)) (Cursor.ofTokens ts) = .ok ss c ∧
      c.rest = [last] ∧ last.kind = .eof ∧ c.In ts ∧ c.loops = [0] := by
  have hstart : (Cursor.ofTokens ts).In ts := ⟨rfl, by cases hts <;> simp [Cursor.ofTokens], by simp [Cursor.ofTokens]⟩
  let n := depthPerToken * (ts.length + 1)
  have hn : 8 * ts.length + 5 ≤ n := by simp only [n, depthPerToken]; omega
  have hloop : (Cursor.ofTokens ts).inLoop = false := rfl
  have h : Comes _ false _ (Reader.program n (Cursor.ofTokens ts)) :=
    Grammar.declarations_reads (fun r' h => (Grammar.readers_take n false r').2.2.2.2.1 (by omega)) (by omega)
      _ (hstart.whole hts) hloop (Nat.le_refl ts.length)
  cases hx : Reader.program n (Cursor.ofTokens ts) with
  | ok ss c =>
    rw [hx] at h
    obtain ⟨us, new, hm, -, -⟩ := h
    obtain ⟨last, vs, hrest, hlast⟩ := Grammar.declarations_stops hx
    have hlast : last.kind = .eof := hlast.elim id id
    have hended := hm.whole.ended
    rw [hrest] at hended
    cases hended with
    | last => exact ⟨ss, c, last, rfl, hrest, hlast, hm.stays hstart, hm.loops⟩
    | more hne => exact absurd hlast hne
  | error e c =>
    cases e with
    | reported =>
      refine absurd hx (declarations_ne (fun c d => ?_) n _ c)
      rw [declaration_eq]
      exact recovering_ne _ c d
    | stuck =>
      rw [hx] at h
      exact h.elim

/-- However malformed the tokens, reading them comes to their end, and each call that reads a declaration at
a place in them gets on. -/
theorem reading_advances (ts : List Token) (hts : Ended ts) :
    (∃ ss c last, Reader.program (depthPerToken * (ts.length + 1)) (Cursor.ofTokens ts) = .ok ss c ∧
      parse ts = (some ss, c.reports.reverse) ∧ c.rest = [last] ∧ last.kind = .eof ∧ c.In ts ∧
      c.loops = [0]) ∧
    ∀ c : Cursor, c.In ts → ∀ n, Advances ts n c := by
  refine ⟨?_, fun c hc n => declaration_advances hts hc n⟩
  obtain ⟨ss, c, last, hread, hends⟩ := program_ends hts
  exact ⟨ss, c, last, hread, by rw [parse, hread], hends⟩

section malformed

def bareToken (kind : Token.Kind) : Token := ⟨kind, "", 1, none⟩

def malformedTokens : List Token :=
  [.leftBrace, .identifier, .identifier, .semicolon, .rightBrace, .eof].map bareToken

def malformedPlace : Cursor := ⟨(malformedTokens.take 1).reverse, malformedTokens.drop 1, [0], []⟩

def malformedError : Cursor :=
  ⟨(malformedTokens.take 2).reverse, malformedTokens.drop 2, [0],
    [⟨.token (bareToken .identifier), .expected "';' after expression"⟩]⟩

theorem malformedTokens_ended : Ended malformedTokens := by
  repeat' constructor
  all_goals decide

theorem malformedTokens_advance :
    Ended malformedTokens ∧ malformedPlace.In malformedTokens ∧
      attempt 60 malformedPlace = .error .reported malformedError ∧
      (∃ c, declaration 60 malformedPlace = .ok none c ∧ malformedError.Restarts c) ∧
      ∀ o c, declaration 60 malformedPlace = .ok o c → malformedPlace.before.length < c.before.length := by
  have hplace : malformedPlace.In malformedTokens := ⟨rfl, by decide, by decide⟩
  have hadvances := (reading_advances malformedTokens malformedTokens_ended).2 malformedPlace hplace 60
  have herror : attempt 60 malformedPlace = .error .reported malformedError := rfl
  have hnext : ∀ t us, malformedPlace.rest = t :: us → t.kind ≠ .eof := by
    rintro t us h
    cases h
    decide
  exact ⟨malformedTokens_ended, hplace, herror, (hadvances.recovers _ herror).2.2, hadvances.further hnext⟩

end malformed

end LoxLang
