import ChartLisp.Number.Ratio

/-!
# Decimal numbers and their two written forms

* `Decimal`             `digits * 10 ^ exponent`, never negative;
* `Decimal.trim`        the same number without trailing zeros in `digits`;
* `Decimal.positional`  digits with a point, never an exponent;
* `Decimal.scientific`  one digit before the point, the exponent signed and of two digits at least.

Both forms write every digit that `digits` has; they differ in the place of the point only.
-/

namespace ChartLisp.Number

/-- the number `digits * 10 ^ exponent` -/
structure Decimal where
  digits : Nat
  exponent : Int
deriving DecidableEq

namespace Decimal

def trailingZeros (n : Nat) : Nat := ((Nat.toDigits 10 n).reverse.takeWhile (· = '0')).length

def trim (d : Decimal) : Decimal :=
  let z := trailingZeros d.digits
  ⟨d.digits / Nat.pow 10 z, d.exponent + z⟩

def leading (d : Decimal) : Int := d.exponent + digitCount d.digits - 1

/-- digits with the point `places` digits before the end -/
def pointed (ds : List Char) (places : Nat) : List Char :=
  let padded := List.replicate (places + 1 - ds.length) '0' ++ ds
  let whole := padded.length - places
  padded.take whole ++ '.' :: padded.drop whole

/-- digits, zeros up to the point, and a point only if digits stand behind it -/
def positional (d : Decimal) : String :=
  let ds := Nat.toDigits 10 d.digits
  if 0 ≤ d.exponent then String.ofList (ds ++ List.replicate d.exponent.toNat '0')
  else String.ofList (pointed ds (-d.exponent).toNat)

def exponentText (k : Int) : String :=
  let ds := Nat.toDigits 10 k.natAbs
  String.ofList ((if k < 0 then '-' else '+') :: (List.replicate (2 - ds.length) '0' ++ ds))

/-- one digit, a point if more digits follow, and the exponent of the leading digit -/
def scientific (d : Decimal) : String :=
  let ds := Nat.toDigits 10 d.digits
  let mantissa := if ds.length = 1 then ds else pointed ds (ds.length - 1)
  String.ofList mantissa ++ "e" ++ exponentText d.leading

end Decimal

end ChartLisp.Number
