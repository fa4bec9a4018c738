import ChartLisp.Double

/-!
# Complex numbers

A complex number is a pair of doubles.  Products and quotients round each part's first product
together with the sum (`Double.fusedMulAdd`); the reciprocal rounds every step.

* `Complex.recip`, `Complex.sqrt`, `Complex.exp`, `Complex.ln`, `Complex.pow`
* `Complex.near`   equality of both parts up to the tolerance
* `Complex.text`   both parts with a comma between
-/

namespace ChartLisp

open Double (fusedMulAdd)

structure Complex where
  re : Double
  im : Double
deriving DecidableEq

namespace Complex

def zero : Complex := ⟨0, 0⟩

def one : Complex := ⟨1, 0⟩

def unit : Complex := ⟨0, 1⟩

def ofReal (x : Double) : Complex := ⟨x, 0⟩

def abs (z : Complex) : Double := z.re.hypot z.im

def arg (z : Complex) : Double := z.re.angle z.im

def conj (z : Complex) : Complex := ⟨z.re, -z.im⟩

def recip (z : Complex) : Complex :=
  let norm := z.re * z.re + z.im * z.im
  ⟨z.re / norm, -(z.im / norm)⟩

/-- principal square root; the imaginary part takes the sign of the argument's -/
def sqrt (z : Complex) : Complex :=
  let r := z.abs
  ⟨(r.midpoint z.re).sqrt, ((r - z.re) / 2).sqrt.copySign z.im⟩

def exp (z : Complex) : Complex :=
  let r := z.re.exp
  ⟨r * z.im.cos, r * z.im.sin⟩

def ln (z : Complex) : Complex := ⟨z.abs.log, z.arg⟩

/-! ## Arithmetic -/

def neg (z : Complex) : Complex := ⟨-z.re, -z.im⟩

def add (z w : Complex) : Complex := ⟨z.re + w.re, z.im + w.im⟩

def sub (z w : Complex) : Complex := ⟨z.re - w.re, z.im - w.im⟩

def mul (z w : Complex) : Complex :=
  ⟨fusedMulAdd z.re w.re (-(z.im * w.im)), fusedMulAdd z.re w.im (z.im * w.re)⟩

def div (z w : Complex) : Complex :=
  let norm := fusedMulAdd w.re w.re (w.im * w.im)
  ⟨fusedMulAdd z.re w.re (z.im * w.im) / norm, fusedMulAdd z.im w.re (-(z.re * w.im)) / norm⟩

instance : Neg Complex := ⟨neg⟩
instance : Add Complex := ⟨add⟩
instance : Sub Complex := ⟨sub⟩
instance : Mul Complex := ⟨mul⟩
instance : Div Complex := ⟨div⟩

/-- principal power; zero to any power is zero -/
def pow (z w : Complex) : Complex :=
  if z.re == 0 && z.im == 0 then zero else (w * z.ln).exp

/-! ## Comparison and text -/

def near (z w : Complex) : Bool := z.re.near w.re && z.im.near w.im

def text (z : Complex) : String := z.re.text ++ "," ++ z.im.text

end Complex

end ChartLisp
