import ChartLisp.Number.Binary

/-!
# Reading a decimal literal

A literal is an optional sign, digits with an optional point (at least one digit on either side),
and an optional exponent of `e` or `E`, an optional sign and digits.

* `Literal.read?`  the parts of a literal, `none` if the text is no literal;
* `Literal.value`  the nearest double.
-/

namespace ChartLisp.Number

/-- a literal's sign, its digits as one whole number, and the power of ten they are times of -/
structure Literal where
  negative : Bool
  digits : Nat
  exponent : Int
deriving DecidableEq

namespace Literal

def ofDigits (ds : List Char) : Nat := ds.foldl (fun n c => 10 * n + (c.toNat - '0'.toNat)) 0

def splitSign : List Char → Bool × List Char
  | '+' :: r => (false, r)
  | '-' :: r => (true, r)
  | r => (false, r)

def splitFraction : List Char → List Char × List Char
  | '.' :: r => (r.takeWhile Char.isDigit, r.dropWhile Char.isDigit)
  | r => ([], r)

/-- the exponent that ends a literal; no text is the exponent zero -/
def readExponent? : List Char → Option Int
  | [] => some 0
  | c :: r =>
    if c = 'e' ∨ c = 'E' then
      let (negative, ds) := splitSign r
      if ds ≠ [] ∧ ds.all Char.isDigit then
        some (if negative then -(ofDigits ds : Int) else ofDigits ds)
      else none
    else none

def read? (s : List Char) : Option Literal :=
  let (negative, s) := splitSign s
  let whole := s.takeWhile Char.isDigit
  let (fraction, s) := splitFraction (s.dropWhile Char.isDigit)
  if whole = [] ∧ fraction = [] then none
  else (readExponent? s).map fun x =>
    ⟨negative, ofDigits (whole ++ fraction), x - fraction.length⟩

/-- The exponent within the range that still matters: from `10 ^ 400` on every non-zero literal is
infinite, and at `10 ^ (-400)` divided by a power that outweighs the digits it is zero. -/
def clampedExponent (l : Literal) : Int :=
  max (min l.exponent 400) (-(400 + (l.digits.log2 : Int)))

def value (l : Literal) : Float :=
  let x := l.clampedExponent
  nearest l.negative (l.digits * tenUp x) (tenDown x)

end Literal

end ChartLisp.Number
