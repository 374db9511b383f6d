namespace LoxLang.Number

/-- The magnitude of a finite double, `significand * 2 ^ exponent`. -/
structure Dyadic where
  significand : Nat
  exponent : Int
deriving DecidableEq, Repr, Inhabited

inductive Parts where
  | finite (negative : Bool) (magnitude : Dyadic)
  | infinite (negative : Bool)
  | notANumber
deriving DecidableEq, Repr

def fractionBits : Nat := 52

def fractionLimit : Nat := Nat.pow 2 fractionBits

def leastExponent : Int := -1074

def infinityBits : Nat := 2047 * fractionLimit

/-- Reads the sign, exponent and fraction fields. A zero exponent field has no implicit leading bit
and the scale of the field's least other value. -/
def partsOfBits (bits : Nat) : Parts :=
  let negative := bits / Nat.pow 2 63 % 2 == 1
  let field := bits / fractionLimit % 2048
  let fraction := bits % fractionLimit
  if field = 2047 then
    if fraction = 0 then .infinite negative else .notANumber
  else if field = 0 then .finite negative ⟨fraction, leastExponent⟩
  else .finite negative ⟨fractionLimit + fraction, leastExponent + (field - 1 : Nat)⟩

def parts (x : Float) : Parts := partsOfBits x.toBits.toNat

def Dyadic.quotient (d : Dyadic) : Nat × Nat :=
  match d.exponent with
  | .ofNat e => (d.significand * Nat.pow 2 e, 1)
  | .negSucc e => (d.significand, Nat.pow 2 (e + 1))

/-- The integral value of a double, if it has one. Infinities and not-a-number have none. -/
def toInt? (x : Float) : Option Int :=
  match parts x with
  | .finite negative magnitude =>
    let (numerator, denominator) := magnitude.quotient
    if numerator % denominator = 0 then
      let n : Int := (numerator / denominator : Nat)
      some (if negative then -n else n)
    else none
  | _ => none

/-- Division to the nearest natural; a tie goes to the even one. -/
def roundQuotient (numerator denominator : Nat) : Nat :=
  let q := numerator / denominator
  let twice := 2 * (numerator % denominator)
  if twice < denominator then q
  else if denominator < twice then q + 1
  else if q % 2 = 0 then q
  else q + 1

def scaled (numerator denominator : Nat) (exponent : Int) : Nat × Nat :=
  match exponent with
  | .ofNat e => (numerator, denominator * Nat.pow 2 e)
  | .negSucc e => (numerator * Nat.pow 2 (e + 1), denominator)

/-- The exponent at which the quotient's significand fills the double's precision, or the least one. -/
def unitExponent (numerator denominator : Nat) : Int :=
  let guess : Int := max leastExponent (numerator.log2 - denominator.log2 - 53)
  let (n, d) := scaled numerator denominator guess
  if n / d < 2 * fractionLimit then guess else guess + 1

/-- The bits of the nonnegative double nearest to a quotient. A significand that rounds up to the next
power of two carries into the exponent field, and past the last exponent stands infinity. -/
def nearestBits (numerator denominator : Nat) : Nat :=
  if numerator = 0 then 0
  else
    let exponent := unitExponent numerator denominator
    let (n, d) := scaled numerator denominator exponent
    let field := (exponent - leastExponent).toNat
    min infinityBits (field * fractionLimit + roundQuotient n d)

/-- The double nearest to `digits * 10 ^ exponent`. Scales far beyond the range are cut short:
every nonzero product there is infinite, or closer to zero than to any other double. -/
def ofDecimal (digits : Nat) (exponent : Int) : Float :=
  let bits :=
    if digits = 0 then 0
    else if 400 < exponent then infinityBits
    else if exponent < -400 - (digits.log2 : Int) then 0
    else match exponent with
      | .ofNat e => nearestBits (digits * Nat.pow 10 e) 1
      | .negSucc e => nearestBits digits (Nat.pow 10 (e + 1))
  Float.ofBits bits.toUInt64

end LoxLang.Number
