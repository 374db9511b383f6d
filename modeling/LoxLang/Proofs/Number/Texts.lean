import LoxLang.Number.Text
import LoxLang.Proofs.Number.Decimals
import Mathlib.Data.List.TakeWhile
import Mathlib.Data.Nat.Cast.Field

namespace LoxLang.Number

/-- What a numeral ends in: nothing, or an exponent. -/
inductive Ending : List Char → Int → Prop
  | none : Ending [] 0
  | exponent (e : Int) : Ending (exponentText e).toList e

/-- Digits, with a point and more digits or without, and how they end; and the number that they stand for. -/
inductive Numeral : List Char → ℚ → Prop
  | whole {digits ending : List Char} {e : Int} (hne : digits ≠ []) (hdigits : ∀ c ∈ digits, c.isDigit)
      (hending : Ending ending e) : Numeral (digits ++ ending) (natOfDigits digits * 10 ^ e)
  | point {digits fraction ending : List Char} {e : Int} (hne : digits ≠ []) (hdigits : ∀ c ∈ digits, c.isDigit)
      (hfraction : ∀ c ∈ fraction, c.isDigit) (hending : Ending ending e) :
      Numeral (digits ++ '.' :: fraction ++ ending) (natOfDigits (digits ++ fraction) * 10 ^ (e - fraction.length))

theorem natOfDigits_eq (digits : List Char) : natOfDigits digits = Nat.ofDigitChars 10 digits 0 := rfl

theorem natOfDigits_toDigits (n : Nat) : natOfDigits (Nat.toDigits 10 n) = n := Nat.ofDigitChars_ten_toDigits

theorem natOfDigits_append (ds es : List Char) :
    natOfDigits (ds ++ es) = natOfDigits ds * 10 ^ es.length + natOfDigits es := by
  simp only [natOfDigits_eq]
  rw [Nat.ofDigitChars_append, Nat.ofDigitChars_eq_ofDigitChars_zero, Nat.mul_comm]

theorem natOfDigits_replicate (n : Nat) : natOfDigits (List.replicate n '0') = 0 := by
  rw [natOfDigits_eq, Nat.ofDigitChars_replicate_zero, Nat.mul_zero]

theorem isDigit_of_mem_replicate {n : Nat} {c : Char} (h : c ∈ List.replicate n '0') : c.isDigit := by
  rw [List.eq_of_mem_replicate h]
  decide

theorem isDigit_of_mem_toDigits {n : Nat} {c : Char} (h : c ∈ Nat.toDigits 10 n) : c.isDigit :=
  Nat.isDigit_of_mem_toDigits (by decide) (by decide) h

def infinity : Float := Float.ofBits infinityBits.toUInt64

def exponentAt : List Char → Int
  | 'e' :: '-' :: digits => -natOfDigits digits
  | 'e' :: _ :: digits => natOfDigits digits
  | _ => 0

def meaning (text : List Char) : ℚ :=
  let mantissa := text.takeWhile (· ≠ 'e')
  let fraction := (mantissa.dropWhile (· ≠ '.')).drop 1
  natOfDigits (mantissa.takeWhile (· ≠ '.') ++ fraction) *
    10 ^ (exponentAt (text.dropWhile (· ≠ 'e')) - fraction.length)

theorem exponentAt_exponentText (e : Int) : exponentAt (exponentText e).toList = e := by
  have hdigits : natOfDigits ((zeros (2 - (toString e.natAbs).length)).toList ++ (toString e.natAbs).toList) =
      e.natAbs := by
    rw [natOfDigits_append, zeros, String.toList_ofList, natOfDigits_replicate, Nat.toString_eq_ofList_toDigits,
      String.toList_ofList, natOfDigits_toDigits, Nat.zero_mul, Nat.zero_add]
  unfold exponentText
  simp only [String.toList_append, List.append_assoc]
  generalize (zeros (2 - (toString e.natAbs).length)).toList ++ (toString e.natAbs).toList = ds at hdigits
  split
  next h =>
    change -(natOfDigits ds : Int) = e
    omega
  next h =>
    change (natOfDigits ds : Int) = e
    omega

theorem exponentText_head (e : Int) : ∃ rest, (exponentText e).toList = 'e' :: rest :=
  ⟨_, by simp [exponentText]; rfl⟩

theorem Ending.exponentAt {ending : List Char} {e : Int} (h : Ending ending e) : exponentAt ending = e := by
  cases h with
  | none => rfl
  | exponent => exact exponentAt_exponentText e

theorem Ending.parts {ending : List Char} {e : Int} (h : Ending ending e) {mantissa : List Char}
    (hmantissa : 'e' ∉ mantissa) : (mantissa ++ ending).takeWhile (· ≠ 'e') = mantissa ∧
      (mantissa ++ ending).dropWhile (· ≠ 'e') = ending := by
  have hall : ∀ c ∈ mantissa, decide (c ≠ 'e') = true := fun c hc => by
    simpa using fun he : c = 'e' => hmantissa (he ▸ hc)
  rw [List.takeWhile_append_of_pos hall, List.dropWhile_append_of_pos hall]
  cases h with
  | none => simp
  | exponent =>
    obtain ⟨rest, hrest⟩ := exponentText_head e
    simp [hrest]

theorem Numeral.meaning {text : List Char} {q : ℚ} (h : Numeral text q) : meaning text = q := by
  have hother : ∀ {c d : Char}, c.isDigit → d.isDigit = false → decide (c ≠ d) = true := fun hc hd => by
    simpa using fun he => by simp [he, hd] at hc
  have habsent : ∀ {digits : List Char}, (∀ c ∈ digits, c.isDigit) → 'e' ∉ digits := fun h he =>
    absurd (h _ he) (by decide)
  unfold Number.meaning
  cases h with
  | whole _ hdigits hending =>
    obtain ⟨hmantissa, hend⟩ := hending.parts (habsent hdigits)
    simp only [hmantissa, hend, hending.exponentAt]
    rw [List.takeWhile_eq_self_iff.2 fun c hc => hother (hdigits c hc) (by decide),
      List.dropWhile_eq_nil_iff.2 fun c hc => hother (hdigits c hc) (by decide)]
    simp
  | @point digits fraction _ _ _ hdigits hfraction hending =>
    have he : 'e' ∉ digits ++ '.' :: fraction := by
      simp [habsent hdigits, habsent hfraction]
    obtain ⟨hmantissa, hend⟩ := hending.parts he
    simp only [hmantissa, hend, hending.exponentAt]
    rw [List.takeWhile_append_of_pos fun c hc => hother (hdigits c hc) (by decide),
      List.dropWhile_append_of_pos fun c hc => hother (hdigits c hc) (by decide)]
    simp

theorem Numeral.head {text : List Char} {q : ℚ} (h : Numeral text q) : ∃ c cs, text = c :: cs ∧ c.isDigit := by
  cases h with
  | @whole digits _ _ hne hdigits =>
    obtain ⟨c, cs, rfl⟩ := List.exists_cons_of_ne_nil hne
    exact ⟨c, _, rfl, hdigits c (List.mem_cons_self ..)⟩
  | @point digits _ _ _ hne hdigits =>
    obtain ⟨c, cs, rfl⟩ := List.exists_cons_of_ne_nil hne
    exact ⟨c, _, rfl, hdigits c (List.mem_cons_self ..)⟩

theorem Ending.chars {ending : List Char} {e : Int} (h : Ending ending e) :
    ∀ c ∈ ending, c.isDigit ∨ c ∈ ['.', 'e', '-', '+'] := by
  cases h with
  | none => exact List.forall_mem_nil _
  | exponent =>
    unfold exponentText
    simp only [String.toList_append, List.forall_mem_append]
    refine ⟨⟨⟨by simp, by split <;> simp⟩, fun c hc => .inl ?_⟩, fun c hc => .inl ?_⟩
    · exact isDigit_of_mem_replicate (by simpa [zeros] using hc)
    · rw [Nat.toString_eq_ofList_toDigits, String.toList_ofList] at hc
      exact isDigit_of_mem_toDigits hc

theorem Numeral.chars {text : List Char} {q : ℚ} (h : Numeral text q) :
    ∀ c ∈ text, c.isDigit ∨ c ∈ ['.', 'e', '-', '+'] := by
  cases h with
  | whole _ hdigits hending =>
    exact List.forall_mem_append.2 ⟨fun c hc => .inl (hdigits c hc), hending.chars⟩
  | point _ hdigits hfraction hending =>
    simp only [List.forall_mem_append, List.forall_mem_cons]
    exact ⟨⟨fun c hc => .inl (hdigits c hc), .inr (by simp), fun c hc => .inl (hfraction c hc)⟩, hending.chars⟩

theorem numeral_scientific {digits : List Char} (hdigits : ∀ c ∈ digits, c.isDigit) (h : digits ≠ []) (e : Int) :
    Numeral (scientific (digits.length - 1 + e) digits).toList (natOfDigits digits * 10 ^ e) := by
  match digits, h with
  | [lead], h => simpa [scientific] using Numeral.whole h hdigits (.exponent e)
  | lead :: next :: rest, _ =>
    obtain ⟨hlead, hrest⟩ := List.forall_mem_cons.1 hdigits
    have hall := Numeral.point (List.cons_ne_nil lead []) (List.forall_mem_singleton.2 hlead) hrest
      (.exponent ((lead :: next :: rest).length - 1 + e))
    have hexponent : ((lead :: next :: rest).length : Int) - 1 + e - (next :: rest).length = e := by
      rw [List.length_cons]
      push_cast
      ring
    rw [hexponent] at hall
    simpa [scientific] using hall

theorem numeral_positional (d : Decimal) :
    let digits := Nat.toDigits 10 d.digits
    Numeral (fullLayout.positional d (digits.length - 1 + d.exponent) digits).toList d.toRat := by
  intro digits
  have hdigits : ∀ c ∈ digits, c.isDigit := fun c hc => isDigit_of_mem_toDigits hc
  have hvalue : natOfDigits digits = d.digits := natOfDigits_toDigits d.digits
  have hlength : 0 < digits.length := Nat.length_toDigits_pos
  unfold Layout.positional
  split
  next hwhole =>
    obtain ⟨e, he⟩ := Int.eq_ofNat_of_zero_le hwhole
    have hall := @Numeral.point (digits ++ List.replicate e '0') ['0'] [] 0
      (List.append_ne_nil_of_left_ne_nil (List.ne_nil_of_length_pos hlength) _)
      (List.forall_mem_append.2 ⟨hdigits, fun _ => isDigit_of_mem_replicate⟩)
      (List.forall_mem_singleton.2 (by decide)) .none
    have hzero : natOfDigits ['0'] = 0 := rfl
    rw [natOfDigits_append, natOfDigits_append, natOfDigits_replicate, hvalue, hzero] at hall
    simpa [zeros, he, fullLayout, Decimal.toRat] using hall
  next hpart =>
  split
  next hfirst =>
    obtain ⟨n, hn⟩ := Int.eq_ofNat_of_zero_le hfirst
    have hall := @Numeral.point (digits.take (n + 1)) (digits.drop (n + 1)) [] 0
      (by simp [List.ne_nil_of_length_pos hlength]) (fun c hc => hdigits c (List.mem_of_mem_take hc))
      (fun c hc => hdigits c (List.mem_of_mem_drop hc)) .none
    rw [List.take_append_drop, hvalue, List.length_drop,
      show (0 : Int) - (digits.length - (n + 1) : Nat) = d.exponent by omega] at hall
    rw [hn]
    simpa [Decimal.toRat] using hall
  next hfirst =>
    obtain ⟨n, hn⟩ := Int.eq_ofNat_of_zero_le (a := -(digits.length - 1 + d.exponent) - 1) (by omega)
    have hall := @Numeral.point ['0'] (List.replicate n '0' ++ digits) [] 0 (by simp)
      (List.forall_mem_singleton.2 (by decide))
      (List.forall_mem_append.2 ⟨fun _ => isDigit_of_mem_replicate, hdigits⟩) .none
    have hdigits' : natOfDigits (['0'] ++ (List.replicate n '0' ++ digits)) = d.digits := by
      rw [natOfDigits_append, natOfDigits_append, natOfDigits_replicate, hvalue]
      simp [natOfDigits, digitValue]
    rw [hdigits', List.length_append, List.length_replicate,
      show (0 : Int) - (n + digits.length : Nat) = d.exponent by omega] at hall
    rw [hn]
    simpa [zeros, Decimal.toRat] using hall

theorem numeral_decimal (d : Decimal) : Numeral (fullLayout.decimal d).toList d.toRat := by
  have hdigits : ∀ c ∈ Nat.toDigits 10 d.digits, c.isDigit := fun c hc => isDigit_of_mem_toDigits hc
  unfold Layout.decimal
  dsimp only
  split
  · exact numeral_positional d
  · have hall := numeral_scientific hdigits Nat.toDigits_ne_nil d.exponent
    rwa [natOfDigits_toDigits] at hall

theorem numeral_toString (n : Nat) : Numeral (toString (n : Int)).toList n := by
  have hall := Numeral.whole Nat.toDigits_ne_nil (fun _ hc => isDigit_of_mem_toDigits (n := n) hc) .none
  rw [natOfDigits_toDigits] at hall
  change Numeral n.repr.toList n
  rw [Nat.toList_repr]
  simpa using hall

theorem Dyadic.quotient_pos (d : Dyadic) : 0 < d.quotient.2 := by
  unfold Dyadic.quotient
  split <;> simp

theorem Dyadic.toRat_quotient (d : Dyadic) : d.toRat = d.quotient.1 / d.quotient.2 := by
  obtain ⟨significand, exponent⟩ := d
  cases exponent with
  | ofNat e => simp [Dyadic.toRat, Dyadic.quotient]
  | negSucc e => simp [Dyadic.toRat, Dyadic.quotient, zpow_negSucc, div_eq_mul_inv]

/-- What stands in a printed tree for a finite number reads back as it. -/
theorem numeral_treeText {x : Float} {d : Dyadic} (h : parts x = .finite false d) :
    ∃ q, Numeral (treeText x).toList q ∧ d.rounding.Holds q := by
  unfold treeText toInt?
  simp only [h]
  by_cases hwhole : d.quotient.1 % d.quotient.2 = 0
  · rw [if_pos hwhole]
    refine ⟨_, numeral_toString _, ?_⟩
    rw [Nat.cast_div (Nat.dvd_of_mod_eq_zero hwhole) (by exact_mod_cast d.quotient_pos.ne'), ← d.toRat_quotient]
    exact d.rounding_holds
  · rw [if_neg hwhole]
    refine ⟨d.shortest.toRat, ?_, d.shortest_holds⟩
    simpa [fullText, Layout.text, h, signed] using numeral_decimal d.shortest

end LoxLang.Number
