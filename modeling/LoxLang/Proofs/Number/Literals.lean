import Mathlib
import LoxLang.Proofs.Number.Texts

namespace LoxLang.Number

/-- A double from zero to infinity. -/
def Unsigned (x : Float) : Prop := x.toBits.toNat ≤ infinityBits

-- What is known of the bits of doubles comes with the library as a whole only.
section bits

open Float.Model Float.Model.UnpackedFloat

theorem valid_of_le {bits : Nat} (h : bits ≤ infinityBits) : Format.binary64.Valid bits.toUInt64.toBitVec := by
  have hlimit : infinityBits = 2047 * 2 ^ 52 := by decide
  have hbits : bits.toUInt64.toBitVec.toNat = bits := by
    rw [UInt64.toNat_toBitVec]
    exact Nat.mod_eq_of_lt (Nat.lt_of_le_of_lt h (by decide))
  generalize bits.toUInt64.toBitVec = b at hbits
  refine ⟨fun hexponent hmantissa => absurd ?_ hmantissa⟩
  rw [unpackExponent_def] at hexponent
  rw [unpackMantissa_def]
  have hexponent := congrArg BitVec.toNat hexponent
  apply BitVec.eq_of_toNat_eq
  rw [BitVec.extractLsb'_toNat, Nat.shiftRight_eq_div_pow, hbits] at hexponent ⊢
  have hfield : bits / 2 ^ 52 % 2 ^ 11 = 2047 := hexponent
  change bits / 2 ^ 0 % 2 ^ 52 = 0
  omega

theorem toBits_ofBits {bits : Nat} (h : bits ≤ infinityBits) : (Float.ofBits bits.toUInt64).toBits.toNat = bits := by
  have hpack : (Float.ofBits bits.toUInt64).toBits = bits.toUInt64 := by
    change UInt64.ofBitVec _ = _
    rw [pack_unpack_of_valid (valid_of_le h)]
  rw [hpack]
  exact Nat.mod_eq_of_lt (Nat.lt_of_le_of_lt h (by decide))

end bits

theorem eq_of_toBits {x y : Float} (h : x.toBits.toNat = y.toBits.toNat) : x = y :=
  Float.toBits_inj.1 (UInt64.toNat_inj.1 h)

theorem nearestBits_le (numerator denominator : Nat) : nearestBits numerator denominator ≤ infinityBits := by
  unfold nearestBits
  split
  · exact Nat.zero_le _
  · exact Nat.min_le_left _ _

theorem ofDecimal_unsigned (digits : Nat) (exponent : Int) : Unsigned (ofDecimal digits exponent) := by
  unfold Unsigned ofDecimal
  dsimp only
  rw [toBits_ofBits]
  all_goals
    split
    · exact Nat.zero_le _
    split
    · exact Nat.le_refl _
    split
    · exact Nat.zero_le _
    split <;> exact nearestBits_le _ _

theorem read_unsigned (text : List Char) : Unsigned (read text) := ofDecimal_unsigned _ _

theorem parts_infinity : parts infinity = .infinite false := by
  rw [parts, infinity, toBits_ofBits (Nat.le_refl _), partsOfBits_infinite]

theorem treeText_infinity : treeText infinity = "inf" := by
  rw [treeText, toInt?, parts_infinity]
  simp [fullText, Layout.text, parts_infinity, signed, fullLayout]

/-- What is written for a finite double stands for a number that rounds to it and to no other. -/
theorem Unsigned.numeral {x : Float} (hx : Unsigned x) (h : x ≠ infinity) :
    ∃ q, Numeral (treeText x).toList q ∧ (dyadicOfBits x.toBits.toNat).rounding.Holds q := by
  have hne : x.toBits.toNat ≠ infinityBits := fun he =>
    h (eq_of_toBits (he.trans (toBits_ofBits (Nat.le_refl _)).symm))
  exact numeral_treeText (partsOfBits_finite (Nat.lt_of_le_of_ne hx hne))

theorem Unsigned.treeText_injective {x y : Float} (hx : Unsigned x) (hy : Unsigned y)
    (h : treeText x = treeText y) : x = y := by
  -- The text of infinity is no numeral, as it starts with a letter.
  have hinfinity : ∀ {z : Float}, Unsigned z → z ≠ infinity → treeText z ≠ treeText infinity := by
    intro z hz hne he
    obtain ⟨q, hq, -⟩ := hz.numeral hne
    obtain ⟨c, cs, htext, hdigit⟩ := hq.head
    rw [he, treeText_infinity] at htext
    injection (show ['i', 'n', 'f'] = c :: cs from htext) with hc
    simp [← hc] at hdigit
  by_cases hxi : x = infinity
  · subst hxi
    by_contra hne
    exact hinfinity hy (Ne.symm hne) h.symm
  by_cases hyi : y = infinity
  · subst hyi
    exact absurd h (hinfinity hx hxi)
  obtain ⟨q, hq, hholds⟩ := hx.numeral hxi
  obtain ⟨q', hq', hholds'⟩ := hy.numeral hyi
  have hsame : q = q' := hq.meaning.symm.trans ((congrArg (fun s : String => meaning s.toList) h).trans hq'.meaning)
  subst hsame
  exact eq_of_toBits (hholds.unique hholds')

theorem exists_reading : ∃ number : List Char → Float, ∀ x, Unsigned x → number (treeText x).toList = x :=
  ⟨Function.invFunOn (fun x => (treeText x).toList) {x | Unsigned x}, fun _ hx =>
    Set.InjOn.leftInvOn_invFunOn (fun _ hy _ hz h => hy.treeText_injective hz (String.toList_inj.1 h)) hx⟩

end LoxLang.Number
