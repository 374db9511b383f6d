import LoxLang.Number.Double

namespace LoxLang.Number

structure Decimal where
  digits : Nat
  exponent : Int
deriving DecidableEq, Repr, Inhabited

/-- A positive double and the reals that round to it, all in units of `2 ^ exponent`.
The end points belong to the interval when the significand is even. -/
structure Rounding where
  low : Nat
  value : Nat
  high : Nat
  closed : Bool
  exponent : Int
deriving DecidableEq, Repr

/-- Below a power of two doubles are twice as dense, except at the bottom of the range. -/
def Dyadic.rounding (d : Dyadic) : Rounding where
  low := if d.significand = fractionLimit ∧ leastExponent < d.exponent
    then 4 * d.significand - 1 else 4 * d.significand - 2
  value := 4 * d.significand
  high := 4 * d.significand + 2
  closed := d.significand % 2 = 0
  exponent := d.exponent - 2

def scales (two ten : Int) : Nat × Nat :=
  let side (base : Nat) : Int → Nat × Nat
    | .ofNat e => (base.pow e, 1)
    | .negSucc e => (1, base.pow (e + 1))
  let (a, b) := side 2 two
  let (c, d) := side 10 ten
  (a * c, b * d)

def Rounding.admits (r : Rounding) (numerator denominator point : Nat) : Bool :=
  let low := r.low * numerator
  let high := r.high * numerator
  let place := point * denominator
  if r.closed then decide (low ≤ place ∧ place ≤ high) else decide (low < place ∧ place < high)

/-- The better of the double's two neighbours on the grid of multiples of `10 ^ exponent`,
if one of them reads back. -/
def Rounding.onGrid? (r : Rounding) (exponent : Int) : Option Nat :=
  let (numerator, denominator) := scales r.exponent (-exponent)
  let exact := r.value * numerator
  let below := exact / denominator
  let above := below + 1
  match r.admits numerator denominator below, r.admits numerator denominator above with
  | true, true => some (roundQuotient exact denominator)
  | true, false => some below
  | false, true => some above
  | false, false => none

/-- The least number of steps up from `point` at which `10 ^ point` exceeds the value. -/
def Rounding.raise (r : Rounding) : Nat → Int → Int
  | 0, point => point
  | steps + 1, point =>
    let (numerator, denominator) := scales r.exponent (-point)
    if r.value * numerator < denominator then point else r.raise steps (point + 1)

/-- How many digits stand before the decimal point; zero or negative below one tenth.
`30103 / 100000` is the decimal logarithm of two, a little rounded up. -/
def Rounding.pointPosition (r : Rounding) : Int :=
  let log2 : Int := r.value.log2 + r.exponent
  r.raise 4 (log2 * 30103 / 100000 - 1)

def Rounding.search (r : Rounding) (point : Int) : Nat → Nat → Option Decimal
  | 0, _ => none
  | fuel + 1, count =>
    match r.onGrid? (point - count) with
    | some digits => some ⟨digits, point - count⟩
    | none => r.search point fuel (count + 1)

def Decimal.trim : Nat → Decimal → Decimal
  | 0, d => d
  | fuel + 1, d =>
    if d.digits ≠ 0 ∧ d.digits % 10 = 0 then trim fuel ⟨d.digits / 10, d.exponent + 1⟩ else d

def maxDigits : Nat := 17

def Dyadic.exact (d : Dyadic) : Decimal :=
  match d.exponent with
  | .ofNat e => ⟨d.significand * Nat.pow 2 e, 0⟩
  | .negSucc e => ⟨d.significand * Nat.pow 5 (e + 1), .negSucc e⟩

/-- The shortest decimal that reads back as the given magnitude. -/
def Dyadic.shortest (d : Dyadic) : Decimal :=
  if d.significand = 0 then ⟨0, 0⟩
  else
    let r := d.rounding
    match r.search r.pointPosition maxDigits 1 with
    | some decimal => decimal.trim (maxDigits + 1)
    | none => d.exact

end LoxLang.Number
