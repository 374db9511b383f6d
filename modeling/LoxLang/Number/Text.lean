import LoxLang.Number.Shortest

namespace LoxLang.Number

/-- How a number is laid out. Without an exponent are written those whose first digit has a place value
from `10 ^ least` up to, and not including, `10 ^ limit`; such a number, if whole, ends as given. -/
structure Layout where
  least : Int
  limit : Int
  wholeEnd : String
  infinity : String
deriving DecidableEq, Repr

def fullLayout : Layout := ⟨-4, 16, ".0", "inf"⟩

def printLayout : Layout := ⟨-4, 16, "", "Infinity"⟩

def zeros (n : Nat) : String := String.ofList (List.replicate n '0')

def exponentText (e : Int) : String :=
  let digits := toString e.natAbs
  "e" ++ (if e < 0 then "-" else "+") ++ zeros (2 - digits.length) ++ digits

def Layout.positional (l : Layout) (d : Decimal) (first : Int) (digits : List Char) : String :=
  if 0 ≤ d.exponent then String.ofList digits ++ zeros d.exponent.toNat ++ l.wholeEnd
  else if 0 ≤ first then
    String.ofList (digits.take (first.toNat + 1)) ++ "." ++
      String.ofList (digits.drop (first.toNat + 1))
  else "0." ++ zeros (-first - 1).toNat ++ String.ofList digits

def scientific (first : Int) : List Char → String
  | [] => exponentText first
  | [lead] => lead.toString ++ exponentText first
  | lead :: rest => lead.toString ++ "." ++ String.ofList rest ++ exponentText first

def Layout.decimal (l : Layout) (d : Decimal) : String :=
  let digits := Nat.toDigits 10 d.digits
  let first : Int := digits.length - 1 + d.exponent
  if l.least ≤ first ∧ first < l.limit then l.positional d first digits else scientific first digits

def signed (negative : Bool) (text : String) : String :=
  if negative then "-" ++ text else text

def Layout.text (l : Layout) (x : Float) : String :=
  match parts x with
  | .finite negative magnitude => signed negative (l.decimal magnitude.shortest)
  | .infinite negative => signed negative l.infinity
  | .notANumber => "nan"

/-- The fewest digits that read back, with a fraction or an exponent. -/
def fullText (x : Float) : String := fullLayout.text x

def printText (x : Float) : String := printLayout.text x

/-- The form in a printed tree: a whole number in all its digits. -/
def treeText (x : Float) : String :=
  match toInt? x with
  | some n => toString n
  | none => fullText x

def digitValue (c : Char) : Nat := c.toNat - '0'.toNat

def natOfDigits (digits : List Char) : Nat := digits.foldl (fun n c => 10 * n + digitValue c) 0

def read (text : List Char) : Float :=
  let whole := text.takeWhile Char.isDigit
  let fraction := (text.dropWhile Char.isDigit).drop 1
  ofDecimal (natOfDigits (whole ++ fraction)) (-fraction.length)

end LoxLang.Number
