import ChartLisp.Plot.Discrete
import ChartLisp.Plot.Sampling

/-!
# Plots of functions

A function is sampled at evenly spaced points.  Then some passes refine the polyline: where it
bends it gets two more samples, and where it is nearly straight it loses its middle point.

* `angleAt`   the angle at the middle of three points, in degrees
* `isBent`         whether three points turn enough to be refined
* `refine`         one pass over consecutive triples; the last point of one is the first of the next
* `Continuous.plot`  the whole plot: segments, captions, borders and axes, corner labels
-/

namespace ChartLisp.Plot

def intervalCount : Nat := 50

def passCount : Nat := 5

/-- from this angle on three points count as straight -/
def straightFrom : Double := 175

def degreesPerRadian : Double := 180 / 3.141592653589793

def squaredDistance (p q : Point) : Double :=
  (p.x - q.x) * (p.x - q.x) + (p.y - q.y) * (p.y - q.y)

/-- `x` brought between `-1` and `1`; NaN stays -/
def clampCosine (x : Double) : Double := if x < -1 then -1 else if 1 < x then 1 else x

/-- the angle at `b` of the triangle `a b c`; one without an angle counts as straight -/
def angleAt (a b c : Point) : Double :=
  let ab := squaredDistance a b
  let bc := squaredDistance b c
  let ac := squaredDistance a c
  let denominator := (4 * ab * bc).sqrt
  if denominator == 0 then 180
  else (clampCosine ((ab + bc - ac) / denominator)).acos * degreesPerRadian

def isBent (a b c : Point) : Bool := angleAt a b c < straightFrom

/-- One refining pass.  A bent triple keeps its points and gets a sample in the middle of either
side; a straight one keeps its first point; what is less than a triple stays. -/
def refine (bent : Point → Point → Point → Bool) (sample : Double → Sampling Point) :
    List Point → Sampling (List Point)
  | a :: b :: c :: rest =>
    if bent a b c then do
      let p ← sample (Double.midpoint a.x b.x)
      let q ← sample (Double.midpoint b.x c.x)
      let refined ← refine bent sample (c :: rest)
      return a :: p :: b :: q :: refined
    else do
      let refined ← refine bent sample (c :: rest)
      return a :: refined
  | rest => return rest

namespace Continuous

def procedure : String := "continuous-plot"

/-- lower and upper bound, both finite and in this order -/
def readBounds (e : Expr) : Except EvalError (Double × Double) := do
  match ← Argument.elements procedure e with
  | [lower, upper] =>
    let lower ← Argument.number procedure lower
    let upper ← Argument.number procedure upper
    if upper ≤ lower || !lower.isFinite || !upper.isFinite then
      .error (.unusable procedure (.reversedBounds lower upper))
    else return (lower, upper)
  | _ => .error (.wrongType procedure (.notBounds e.render))

def sample (x : Double) : Sampling Point := do
  let y ← Sampling.value x
  Sampling.ofExcept (finitePoint procedure x y)

def firstSamples (lower upper : Double) : Sampling (List Point) :=
  let step := (upper - lower) / Double.ofNat intervalCount
  (List.range (intervalCount + 1)).mapM fun i => sample (lower + Double.ofNat i * step)

def refineAll : List Nat → List Point → Sampling (List Point)
  | [], ps => return ps
  | pass :: passes, ps => do
    let ps ← refine isBent sample ps
    Sampling.record (.refined pass ps.length)
    refineAll passes ps

def segments : List Expr → List Expr
  | a :: b :: rest => line a b :: segments (b :: rest)
  | _ => []

def scene (b : Extent) (ps : List Point) (o : Options) : List Expr :=
  segments (ps.map fun p => place (b.mapX p.x) (b.mapY p.y)) ++ o.captions b ++ b.borders ++
    b.cornerLabels o.textScale

/-- the plot of a function over `bounds`, which are read first, then the options -/
def plot (bounds options : Expr) : Sampling Expr := do
  let (lower, upper) ← Sampling.ofExcept (readBounds bounds)
  let o ← Sampling.ofExcept (Options.read procedure options)
  let ps ← firstSamples lower upper
  Sampling.record (.sampled ps.length lower upper)
  let ps ← refineAll (List.range' 1 passCount) ps
  match Extent.ofPoints? ps with
  | none => .fail (.unusable procedure .noData)
  | some b => return Expr.list (scene b ps o)

end Continuous

end ChartLisp.Plot
