import ChartLisp.Number.Exact
import ChartLisp.Number.Near
import ChartLisp.Number.Significant

/-!
# Doubles with a sign on NaN

The numbers of the language are doubles.  Among them a NaN has a sign too: no text shows it, but
`copySign` hands it on to a number.  `Float` has one NaN only, so the sign is kept beside it.

* `Double`           a `Float`, and the sign it has if it is NaN;
* `Double.signBit`   the sign of any double, zeros and NaN included;
* `Double.ofResult`  the result of an operation.  A NaN takes the sign of the first operand that is
                     NaN; if none is, the operation was invalid and the sign is a minus;
* `Double.neg`, `Double.abs`, `Double.copySign`  the operations that are about the sign alone.

Apart from the sign of a NaN every operation is the one on `Float` (`float_add` and so on), and
order, equality, tolerance and text look at the `Float` only.
-/

namespace ChartLisp

structure Double where
  float : Float
  /-- whether a NaN has a minus; of other numbers the `Float` has the sign -/
  nanNegative : Bool
  isNaN_of_nanNegative : nanNegative = true → float.isNaN = true
deriving DecidableEq

namespace Double

/-! ## Construction -/

/-- the double `x`, with the given sign if it is NaN -/
def withSign (x : Float) (negative : Bool) : Double :=
  ⟨x, negative && x.isNaN, fun h => (Bool.and_eq_true _ _ ▸ h).2⟩

def ofFloat (x : Float) : Double := ⟨x, false, fun h => nomatch h⟩

def ofNat (n : Nat) : Double := ofFloat (Float.ofNat n)

def nan (negative : Bool) : Double := withSign (0 / 0) negative

def infinity (negative : Bool) : Double :=
  ofFloat (Number.ofMagnitudeBits negative Number.infinityBits)

instance (n : Nat) : OfNat Double n := ⟨ofNat n⟩
instance : OfScientific Double := ⟨fun m s e => ofFloat (OfScientific.ofScientific m s e)⟩
instance : Inhabited Double := ⟨0⟩

/-! ## Views -/

def isNaN (x : Double) : Bool := x.float.isNaN

def isFinite (x : Double) : Bool := x.float.isFinite

def signBit (x : Double) : Bool := if x.isNaN then x.nanNegative else Number.signBit x.float

/-! ## The sign alone -/

def neg (x : Double) : Double := withSign (-x.float) !x.nanNegative

def abs (x : Double) : Double := ofFloat x.float.abs

instance : Neg Double := ⟨neg⟩

def copySign (x y : Double) : Double := if y.signBit then -x.abs else x.abs

/-! ## Operations -/

/-- the outcome `x` of an operation on the operands -/
def ofResult (operands : List Double) (x : Float) : Double :=
  withSign x (((operands.find? isNaN).map nanNegative).getD true)

def map (f : Float → Float) (x : Double) : Double := ofResult [x] (f x.float)

def map2 (f : Float → Float → Float) (x y : Double) : Double := ofResult [x, y] (f x.float y.float)

def add : Double → Double → Double := map2 (· + ·)

def sub : Double → Double → Double := map2 (· - ·)

def mul : Double → Double → Double := map2 (· * ·)

def div : Double → Double → Double := map2 (· / ·)

instance : Add Double := ⟨add⟩
instance : Sub Double := ⟨sub⟩
instance : Mul Double := ⟨mul⟩
instance : Div Double := ⟨div⟩

def sqrt : Double → Double := map Float.sqrt

def exp : Double → Double := map Float.exp

def log : Double → Double := map Float.log

def sin : Double → Double := map Float.sin

def cos : Double → Double := map Float.cos

def tan : Double → Double := map Float.tan

def acos : Double → Double := map Float.acos

def isOdd (x : Double) : Bool := (Number.Binary.ofFloat x.float).isOdd

/-- the power; an odd power of a NaN has no minus -/
def pow (x y : Double) : Double :=
  if x.isNaN && y.isOdd then ofFloat (x.float.pow y.float) else map2 Float.pow x y

def angle (x y : Double) : Double := map2 (fun x y => Float.atan2 y x) x y

def hypot : Double → Double → Double := map2 Number.hypot

def midpoint : Double → Double → Double := map2 Number.midpoint

/-- `a * b + c`, rounded once; among NaN operands the second comes before the first -/
def fusedMulAdd (a b c : Double) : Double :=
  ofResult [b, a, c] (Number.fusedMulAdd a.float b.float c.float)

@[simp] theorem float_neg (x : Double) : (-x).float = -x.float := rfl

@[simp] theorem float_add (x y : Double) : (x + y).float = x.float + y.float := rfl

@[simp] theorem float_sub (x y : Double) : (x - y).float = x.float - y.float := rfl

@[simp] theorem float_mul (x y : Double) : (x * y).float = x.float * y.float := rfl

@[simp] theorem float_div (x y : Double) : (x / y).float = x.float / y.float := rfl

/-! ## Order, equality and text -/

instance : LT Double := ⟨fun x y => x.float < y.float⟩
instance : LE Double := ⟨fun x y => x.float ≤ y.float⟩
instance (x y : Double) : Decidable (x < y) := inferInstanceAs (Decidable (x.float < y.float))
instance (x y : Double) : Decidable (x ≤ y) := inferInstanceAs (Decidable (x.float ≤ y.float))

/-- equality of numbers: zeros are equal whatever their sign, and a NaN equals nothing -/
instance : BEq Double := ⟨fun x y => x.float == y.float⟩

def near (x y : Double) : Bool := Number.near x.float y.float

def text (x : Double) : String := Number.text x.float

def significant? (x : Double) (count : Nat) : Option String := Number.significant? x.float count

def orderKey (x : Double) : Int := Number.orderKey x.float

end Double

end ChartLisp
