import ChartLisp.Number.Binary

/-!
# Operations that round once, or that must not overflow in between

* `fusedMulAdd`  `a * b + c` with one rounding at the end;
* `hypot`        the length `√(a² + b²)`, rounded once;
* `midpoint`     the middle of two doubles, also where their sum overflows.
-/

namespace ChartLisp.Number

namespace Binary

def mul (a b : Binary) : Binary :=
  ⟨a.negative != b.negative, a.mantissa * b.mantissa, a.exponent + b.exponent⟩

def mantissaAt (a : Binary) (e : Int) : Nat := a.mantissa * twoUp (a.exponent - e)

def signedAt (a : Binary) (e : Int) : Int :=
  if a.negative then -(a.mantissaAt e : Int) else a.mantissaAt e

/-- exact sum; a sum of zero is negative only if both terms are -/
def add (a b : Binary) : Binary :=
  let e := min a.exponent b.exponent
  let s := a.signedAt e + b.signedAt e
  ⟨decide (s < 0) || (s == 0 && a.negative && b.negative), s.natAbs, e⟩

/-- The square root with 64 more bits than the whole part has.  A last bit that is set says that
the root is not exact, which is all that rounding to 53 bits can still depend on. -/
def sqrtSum (a b : Binary) : Binary :=
  let e := min a.exponent b.exponent
  let n := (Nat.pow (a.mantissaAt e) 2 + Nat.pow (b.mantissaAt e) 2) * Nat.pow 2 128
  let r := n.sqrt
  ⟨false, 2 * r + (if r * r = n then 0 else 1), e - 65⟩

end Binary

def fusedMulAdd (a b c : Float) : Float :=
  -- an infinite or NaN `c` swallows a finite product; the product itself is never formed in `Float`
  if a.isFinite && b.isFinite then
    if c.isFinite then (((Binary.ofFloat a).mul (Binary.ofFloat b)).add (Binary.ofFloat c)).toFloat
    else c
  else a * b + c

/-- the length of the vector `(a, b)`; infinite if one of the two is, whatever the other -/
def hypot (a b : Float) : Float :=
  if a.isFinite && b.isFinite then ((Binary.ofFloat a).sqrtSum (Binary.ofFloat b)).toFloat
  else if a.isInf || b.isInf then ofMagnitudeBits false infinityBits
  else a + b

def halfLargest : Float := ofMagnitudeBits false (2046 * Nat.pow 2 52 - 1)

def twiceLeastNormal : Float := ofMagnitudeBits false (2 * Nat.pow 2 52)

/-- the middle of `a` and `b`: half of the sum where the sum cannot overflow, and otherwise the sum
of the halves, a number too small to be halved exactly being taken whole -/
def midpoint (a b : Float) : Float :=
  if a.abs ≤ halfLargest ∧ b.abs ≤ halfLargest then (a + b) / 2
  else if a.abs < twiceLeastNormal then a + b / 2
  else if b.abs < twiceLeastNormal then a / 2 + b
  else a / 2 + b / 2

end ChartLisp.Number
