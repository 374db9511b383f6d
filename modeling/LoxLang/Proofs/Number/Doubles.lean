import LoxLang.Number.Shortest
import Mathlib.Algebra.Order.Field.Basic
import Mathlib.Algebra.Order.Field.Rat
import Mathlib.Data.Rat.Cast.Order
import Mathlib.Order.Monotone.Basic
import Mathlib.Tactic.FieldSimp
import Mathlib.Tactic.Linarith
import Mathlib.Tactic.Ring

namespace LoxLang.Number

def Dyadic.toRat (d : Dyadic) : ℚ := d.significand * 2 ^ d.exponent

def dyadicOfBits (bits : Nat) : Dyadic :=
  if bits / fractionLimit = 0 then ⟨bits % fractionLimit, leastExponent⟩
  else ⟨fractionLimit + bits % fractionLimit, leastExponent + (bits / fractionLimit - 1 : Nat)⟩

theorem partsOfBits_finite {bits : Nat} (h : bits < infinityBits) :
    partsOfBits bits = .finite false (dyadicOfBits bits) := by
  have hsign : bits / Nat.pow 2 63 = 0 :=
    Nat.div_eq_of_lt (Nat.lt_of_lt_of_le h (by decide))
  have hfield : bits / fractionLimit < 2047 := Nat.div_lt_of_lt_mul (by rwa [Nat.mul_comm])
  have hmod : bits / fractionLimit % 2048 = bits / fractionLimit := Nat.mod_eq_of_lt (by omega)
  unfold partsOfBits dyadicOfBits
  simp only [hsign, hmod]
  rw [if_neg (by omega)]
  split <;> rfl

theorem partsOfBits_infinite : partsOfBits infinityBits = .infinite false := by decide

theorem fractionLimit_pos : 0 < fractionLimit := by decide

theorem dyadicOfBits_fields (field : Nat) {fraction : Nat} (h : fraction < fractionLimit) :
    dyadicOfBits (fractionLimit * field + fraction) =
      if field = 0 then ⟨fraction, leastExponent⟩
      else ⟨fractionLimit + fraction, leastExponent + (field - 1 : Nat)⟩ := by
  have hfield : (fractionLimit * field + fraction) / fractionLimit = field := by
    rw [Nat.mul_add_div fractionLimit_pos, Nat.div_eq_of_lt h, Nat.add_zero]
  have hfraction : (fractionLimit * field + fraction) % fractionLimit = fraction := by
    rw [Nat.mul_add_mod, Nat.mod_eq_of_lt h]
  rw [dyadicOfBits, hfield, hfraction]

theorem exists_fields (bits : Nat) :
    ∃ field fraction, fraction < fractionLimit ∧ bits = fractionLimit * field + fraction :=
  ⟨_, _, Nat.mod_lt _ fractionLimit_pos, (Nat.div_add_mod bits fractionLimit).symm⟩

/-- The double after this one. Only from the last fraction of a field to the first of the next does the scale change,
and the first two fields have the same. -/
theorem dyadicOfBits_succ (bits : Nat) :
    let d := dyadicOfBits bits
    dyadicOfBits (bits + 1) =
      if d.significand + 1 = 2 * fractionLimit then ⟨fractionLimit, d.exponent + 1⟩
      else ⟨d.significand + 1, d.exponent⟩ := by
  obtain ⟨field, fraction, hfraction, rfl⟩ := exists_fields bits
  intro d
  have hd : d = _ := dyadicOfBits_fields field hfraction
  by_cases hlast : fraction + 1 < fractionLimit
  · rw [Nat.add_assoc, dyadicOfBits_fields field hlast, hd]
    by_cases hzero : field = 0
    · simp only [if_pos hzero]
      rw [if_neg (by omega)]
    · simp only [if_neg hzero]
      rw [if_neg (by omega), Nat.add_assoc]
  · have hnext : fractionLimit * field + fraction + 1 = fractionLimit * (field + 1) + 0 := by
      rw [Nat.mul_succ]
      omega
    rw [hnext, dyadicOfBits_fields (field + 1) fractionLimit_pos, if_neg (Nat.succ_ne_zero field), hd]
    cases field with
    | zero =>
      simp only [if_pos]
      rw [if_neg (by omega)]
      simp
      omega
    | succ field =>
      simp only [if_neg (Nat.succ_ne_zero field)]
      rw [if_pos (by omega)]
      simp
      omega

theorem toRat_succ (bits : Nat) :
    (dyadicOfBits (bits + 1)).toRat = (dyadicOfBits bits).toRat + 2 ^ (dyadicOfBits bits).exponent := by
  rw [dyadicOfBits_succ]
  split
  next h =>
    have hcast : ((dyadicOfBits bits).significand : ℚ) = 2 * fractionLimit - 1 := by
      rw [eq_sub_iff_add_eq]
      exact_mod_cast h
    simp only [Dyadic.toRat, hcast]
    rw [zpow_add₀ two_ne_zero]
    ring
  next =>
    simp only [Dyadic.toRat]
    push_cast
    ring

theorem toRat_strictMono : StrictMono fun bits => (dyadicOfBits bits).toRat :=
  strictMono_nat_of_lt_succ fun bits => by
    simp only [toRat_succ]
    exact lt_add_of_pos_right _ (zpow_pos two_pos _)

theorem significand_mod_two (bits : Nat) : (dyadicOfBits bits).significand % 2 = bits % 2 := by
  have heven : fractionLimit % 2 = 0 := by decide
  obtain ⟨field, fraction, hfraction, rfl⟩ := exists_fields bits
  rw [dyadicOfBits_fields field hfraction, Nat.add_mod, Nat.mul_mod, heven, Nat.zero_mul, Nat.zero_mod]
  split
  · simp
  · simp [Nat.add_mod, heven]

def halfway (bits : Nat) : ℚ := ((dyadicOfBits bits).toRat + (dyadicOfBits (bits + 1)).toRat) / 2

/-- What lies in the interval of the rationals that round to a magnitude. -/
def Rounding.Holds (r : Rounding) (q : ℚ) : Prop :=
  if r.closed then r.low * 2 ^ r.exponent ≤ q ∧ q ≤ r.high * 2 ^ r.exponent
  else r.low * 2 ^ r.exponent < q ∧ q < r.high * 2 ^ r.exponent

theorem rounding_high (bits : Nat) :
    ((dyadicOfBits bits).rounding.high : ℚ) * 2 ^ (dyadicOfBits bits).rounding.exponent = halfway bits := by
  rw [halfway, toRat_succ]
  simp only [Dyadic.rounding, Dyadic.toRat]
  rw [zpow_sub₀ two_ne_zero]
  push_cast
  ring

theorem exponent_eq_least {bits : Nat} (h : (dyadicOfBits bits).significand < fractionLimit) :
    (dyadicOfBits bits).exponent = leastExponent := by
  unfold dyadicOfBits at h ⊢
  split at h
  next hzero => rw [if_pos hzero]
  next => exact absurd h (Nat.not_lt.2 (Nat.le_add_right _ _))

theorem leastExponent_le (bits : Nat) : leastExponent ≤ (dyadicOfBits bits).exponent := by
  unfold dyadicOfBits
  split
  · exact Int.le_refl _
  · exact Int.le_add_of_nonneg_right (Int.natCast_nonneg _)

theorem rounding_low (bits : Nat) :
    ((dyadicOfBits (bits + 1)).rounding.low : ℚ) * 2 ^ (dyadicOfBits (bits + 1)).rounding.exponent =
      halfway bits := by
  have hpos := fractionLimit_pos
  have hsmall := @exponent_eq_least bits
  have hleast := leastExponent_le bits
  rw [halfway, toRat_succ, dyadicOfBits_succ]
  generalize dyadicOfBits bits = d at hsmall hleast
  split
  next h =>
    have hcast : (d.significand : ℚ) = 2 * fractionLimit - 1 := by
      rw [eq_sub_iff_add_eq]
      exact_mod_cast h
    simp only [Dyadic.rounding, Dyadic.toRat, true_and]
    rw [if_pos (by omega), Nat.cast_sub (by omega), hcast, zpow_sub₀ two_ne_zero, zpow_add₀ two_ne_zero]
    push_cast
    ring
  next =>
    simp only [Dyadic.rounding, Dyadic.toRat]
    rw [if_neg (by omega), Nat.cast_sub (by omega), zpow_sub₀ two_ne_zero]
    push_cast
    ring

theorem halfway_strictMono : StrictMono halfway :=
  strictMono_nat_of_lt_succ fun bits => by
    have hthis := toRat_strictMono (Nat.lt_succ_self bits)
    have hnext := toRat_strictMono (Nat.lt_succ_self (bits + 1))
    simp only [halfway] at *
    linarith

theorem Rounding.Holds.bounds {r : Rounding} {q : ℚ} (h : r.Holds q) :
    (r.low * 2 ^ r.exponent ≤ q ∧ q ≤ r.high * 2 ^ r.exponent) ∧
      (r.closed = false → r.low * 2 ^ r.exponent < q ∧ q < r.high * 2 ^ r.exponent) := by
  unfold Rounding.Holds at h
  split at h
  next hclosed => exact ⟨h, fun hopen => by simp [hclosed] at hopen⟩
  next => exact ⟨⟨h.1.le, h.2.le⟩, fun _ => h⟩

/-- Nothing rounds to two doubles: a point halfway between neighbours goes to the even one. -/
theorem Rounding.Holds.unique {bits bits' : Nat} {q : ℚ} (h : (dyadicOfBits bits).rounding.Holds q)
    (h' : (dyadicOfBits bits').rounding.Holds q) : bits = bits' := by
  wlog hle : bits ≤ bits' generalizing bits bits'
  · exact (this h' h (Nat.le_of_not_le hle)).symm
  refine hle.eq_or_lt.resolve_right fun hlt => ?_
  obtain ⟨before, rfl⟩ := Nat.exists_eq_add_one_of_ne_zero (Nat.ne_of_gt (Nat.zero_lt_of_lt hlt))
  obtain ⟨⟨-, hhigh⟩, hopen⟩ := h.bounds
  obtain ⟨⟨hlow, -⟩, hopen'⟩ := h'.bounds
  rw [rounding_high] at hhigh hopen
  rw [rounding_low] at hlow hopen'
  -- The interval of the first ends where that of the second begins, so the two are neighbours.
  have hmono := halfway_strictMono.monotone (Nat.le_of_lt_succ hlt)
  have hsame : bits = before :=
    halfway_strictMono.injective (le_antisymm hmono (hlow.trans hhigh))
  subst hsame
  have hparity := significand_mod_two bits
  have hparity' := significand_mod_two (bits + 1)
  rcases Nat.mod_two_eq_zero_or_one bits with heven | hodd
  · have hclosed : (dyadicOfBits (bits + 1)).rounding.closed = false := by
      simp only [Dyadic.rounding, decide_eq_false_iff_not]
      omega
    exact absurd (hopen' hclosed).1 (not_lt.2 hhigh)
  · have hclosed : (dyadicOfBits bits).rounding.closed = false := by
      simp only [Dyadic.rounding, decide_eq_false_iff_not]
      omega
    exact absurd (hopen hclosed).2 (not_lt.2 hlow)

end LoxLang.Number
