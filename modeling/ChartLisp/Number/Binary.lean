import ChartLisp.Number.Ratio

/-!
# Doubles as exact binary numbers

A finite double is a signed whole number times a power of two.

* `Binary`           such a number, its sign kept apart so that `-0` exists;
* `Binary.ofFloat`   the exact value of a finite double;
* `nearest`          the double nearest to a quotient, ties to the even mantissa, too large
                     values going to infinity;
* `Binary.toFloat`   the double nearest to a binary number;
* `orderKey`         the place of a double among all doubles.

The magnitude bits of `m * 2 ^ e` are `(e + 1074) * 2 ^ 52 + m` for subnormal and normal numbers
alike, so a mantissa rounded up to `2 ^ 53` carries into the exponent by itself.
-/

namespace ChartLisp.Number

/-- the number `± mantissa * 2 ^ exponent` -/
structure Binary where
  negative : Bool
  mantissa : Nat
  exponent : Int

/-- the sign bit, set also on `-0` -/
def signBit (x : Float) : Bool := x.toBits >>> 63 != 0

def leastExponent : Int := -1074

/-- magnitude bits of infinity; those of every finite double are below -/
def infinityBits : Nat := 2047 * Nat.pow 2 52

def Binary.ofFloat (x : Float) : Binary :=
  let bits : Nat := x.toBits.toNat
  let field : Nat := bits / Nat.pow 2 52 % Nat.pow 2 11
  let fraction : Nat := bits % Nat.pow 2 52
  if field = 0 then ⟨signBit x, fraction, leastExponent⟩
  else ⟨signBit x, Nat.pow 2 52 + fraction, (field : Int) - 1 + leastExponent⟩

def ofMagnitudeBits (negative : Bool) (bits : Nat) : Float :=
  Float.ofBits (UInt64.ofNat ((if negative then Nat.pow 2 63 else 0) + bits))

/-- magnitude bits of the double nearest to `n / d`, for `0 < d` -/
def nearestBits (n d : Nat) : Nat :=
  if n = 0 then 0
  else
    let e := max leastExponent (bitMagnitude n d - 52)
    let m := roundDiv (n * twoDown e) (d * twoUp e)
    min ((e - leastExponent).toNat * Nat.pow 2 52 + m) infinityBits

def nearest (negative : Bool) (n d : Nat) : Float :=
  ofMagnitudeBits negative (nearestBits n d)

def Binary.toFloat (b : Binary) : Float :=
  nearest b.negative (b.mantissa * twoUp b.exponent) (twoDown b.exponent)

def Binary.isOdd (b : Binary) : Bool :=
  b.mantissa * twoUp b.exponent % (2 * twoDown b.exponent) == twoDown b.exponent

/-- how many doubles lie between zero and `x`, negative below zero; both zeros have the key `0`, and
neighbouring doubles have neighbouring keys -/
def orderKey (x : Float) : Int :=
  let bits : Nat := x.toBits.toNat % Nat.pow 2 63
  if signBit x then -(bits : Int) else bits

end ChartLisp.Number
