import LoxLang.Proofs.Number.Doubles

namespace LoxLang.Number

def Decimal.toRat (d : Decimal) : ℚ := d.digits * 10 ^ d.exponent

theorem scales_pos (two ten : Int) : 0 < (scales two ten).2 := by
  cases two <;> cases ten <;> simp [scales]

theorem scales_quotient (two ten : Int) :
    ((scales two ten).1 : ℚ) / (scales two ten).2 = 2 ^ two * 10 ^ ten := by
  cases two <;> cases ten <;> simp [scales, zpow_negSucc, div_eq_mul_inv, mul_comm]

theorem Rounding.admits_iff (r : Rounding) (exponent : Int) (point : Nat) :
    r.admits (scales r.exponent (-exponent)).1 (scales r.exponent (-exponent)).2 point = true ↔
      r.Holds (point * 10 ^ exponent) := by
  have hten : (0 : ℚ) < 10 ^ exponent := zpow_pos (by norm_num) _
  have hpos : (0 : ℚ) < (scales r.exponent (-exponent)).2 := by exact_mod_cast scales_pos _ _
  have hquotient := scales_quotient r.exponent (-exponent)
  rw [div_eq_iff hpos.ne', zpow_neg] at hquotient
  generalize scales r.exponent (-exponent) = s at *
  have hle : ∀ a b : Nat, a * s.1 ≤ b * s.2 ↔ (a : ℚ) * 2 ^ r.exponent ≤ b * 10 ^ exponent := by
    intro a b
    rw [← Nat.cast_le (α := ℚ)]
    push_cast
    rw [hquotient, ← mul_assoc, mul_le_mul_iff_left₀ hpos, ← mul_assoc, ← div_eq_mul_inv, div_le_iff₀ hten]
  have hge : ∀ a b : Nat, b * s.2 ≤ a * s.1 ↔ (b : ℚ) * 10 ^ exponent ≤ a * 2 ^ r.exponent := by
    intro a b
    rw [← Nat.cast_le (α := ℚ)]
    push_cast
    rw [hquotient, ← mul_assoc, mul_le_mul_iff_left₀ hpos, ← mul_assoc, ← div_eq_mul_inv, le_div_iff₀ hten]
  unfold Rounding.admits Rounding.Holds
  split
  · simp only [decide_eq_true_eq, hle, hge]
  · simp only [decide_eq_true_eq, ← not_le, hle, hge]

theorem roundQuotient_eq (numerator denominator : Nat) :
    roundQuotient numerator denominator = numerator / denominator ∨
      roundQuotient numerator denominator = numerator / denominator + 1 := by
  unfold roundQuotient
  dsimp only
  split
  · exact .inl rfl
  split
  · exact .inr rfl
  split
  · exact .inl rfl
  · exact .inr rfl

theorem Rounding.onGrid?_holds {r : Rounding} {exponent : Int} {digits : Nat}
    (h : r.onGrid? exponent = some digits) : r.Holds (digits * 10 ^ exponent) := by
  rw [← admits_iff]
  unfold Rounding.onGrid? at h
  dsimp only at h
  split at h
  next hbelow habove =>
    obtain rfl := Option.some.inj h
    rcases roundQuotient_eq (r.value * (scales r.exponent (-exponent)).1) (scales r.exponent (-exponent)).2
      with heq | heq
    · rwa [heq]
    · rwa [heq]
  next hbelow _ => exact Option.some.inj h ▸ hbelow
  next _ habove => exact Option.some.inj h ▸ habove
  next => cases h

theorem Rounding.search_holds {r : Rounding} {point : Int} {fuel count : Nat} {d : Decimal}
    (h : r.search point fuel count = some d) : r.Holds d.toRat := by
  induction fuel generalizing count with
  | zero => cases h
  | succ fuel ih =>
    rw [search] at h
    split at h
    next hgrid => exact Option.some.inj h ▸ onGrid?_holds hgrid
    next => exact ih h

theorem Decimal.toRat_trim (fuel : Nat) (d : Decimal) : (d.trim fuel).toRat = d.toRat := by
  induction fuel generalizing d with
  | zero => rfl
  | succ fuel ih =>
    rw [trim]
    split
    next h =>
      have hdigits : (d.digits : ℚ) = (d.digits / 10 : Nat) * 10 := by
        exact_mod_cast (Nat.div_mul_cancel (Nat.dvd_of_mod_eq_zero h.2)).symm
      rw [ih, toRat, toRat, zpow_add₀ (by norm_num), hdigits]
      ring
    next => rfl

theorem Dyadic.toRat_exact (d : Dyadic) : d.exact.toRat = d.toRat := by
  obtain ⟨significand, exponent⟩ := d
  cases exponent with
  | ofNat e => simp [Dyadic.exact, Decimal.toRat, Dyadic.toRat]
  | negSucc e =>
    have hten : (10 : ℚ) ^ (e + 1) = 2 ^ (e + 1) * 5 ^ (e + 1) := by rw [← mul_pow]; norm_num
    simp only [Dyadic.exact, Decimal.toRat, Dyadic.toRat, zpow_negSucc, hten]
    push_cast [Nat.pow_eq]
    field_simp

theorem Dyadic.rounding_holds (d : Dyadic) : d.rounding.Holds d.toRat := by
  have hunit : (0 : ℚ) < 2 ^ (d.exponent - 2) := zpow_pos two_pos _
  have hvalue : d.toRat = (4 * d.significand : Nat) * 2 ^ (d.exponent - 2) := by
    rw [Dyadic.toRat, zpow_sub₀ two_ne_zero]
    push_cast
    ring
  have hlow : d.rounding.low ≤ 4 * d.significand := by
    simp only [Dyadic.rounding]
    split <;> omega
  rw [hvalue]
  unfold Rounding.Holds
  split
  next =>
    constructor
    · exact mul_le_mul_of_nonneg_right (by exact_mod_cast hlow) hunit.le
    · exact mul_le_mul_of_nonneg_right (by simp [Dyadic.rounding]) hunit.le
  next hopen =>
    have hodd : d.significand % 2 ≠ 0 := by simpa [Dyadic.rounding] using hopen
    have hlt : d.rounding.low < 4 * d.significand := by
      simp only [Dyadic.rounding]
      split <;> omega
    constructor
    · exact mul_lt_mul_of_pos_right (by exact_mod_cast hlt) hunit
    · exact mul_lt_mul_of_pos_right (by simp [Dyadic.rounding]) hunit

theorem Dyadic.shortest_holds (d : Dyadic) : d.rounding.Holds d.shortest.toRat := by
  unfold Dyadic.shortest
  split
  next h =>
    have hzero : d.toRat = 0 := by simp [Dyadic.toRat, h]
    simpa [Decimal.toRat, hzero] using d.rounding_holds
  next =>
    dsimp only
    split
    next hsearch =>
      rw [Decimal.toRat_trim]
      exact Rounding.search_holds hsearch
    next =>
      rw [d.toRat_exact]
      exact d.rounding_holds

end LoxLang.Number
