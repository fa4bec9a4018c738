import ChartLisp.Plot.Options

/-!
# Plots of data points

Each point is drawn as a marker on a stem that ends on the x axis or on the border next to it.

* `readPoint`       the data point that an expression is
* `Discrete.stems`  marker and stem of every point
* `Discrete.plot`   the whole plot: stems, borders and axes, captions, corner labels
-/

namespace ChartLisp.Plot

def markerSize : Double := 0.5

def finitePoint (procedure : String) (x y : Double) : Except EvalError Point :=
  if x.isFinite && y.isFinite then .ok ⟨x, y⟩
  else .error (.unusable procedure (.notFinite x y))

def readPoint (procedure : String) (e : Expr) : Except EvalError Point := do
  match ← Argument.elements procedure e with
  | [x, y] =>
    let x ← Argument.number procedure x
    let y ← Argument.number procedure y
    finitePoint procedure x y
  | _ => .error (.wrongType procedure (.notPoint e.render))

namespace Discrete

def procedure : String := "discrete-plot"

def stem (b : Extent) (p : Point) : List Expr :=
  let x := b.mapX p.x
  let y := b.mapY p.y
  [point x y markerSize, line (place x y) (place x b.stemFoot)]

def stems (b : Extent) (ps : List Point) : List Expr := ps.flatMap (stem b)

def scene (b : Extent) (ps : List Point) (o : Options) : List Expr :=
  stems b ps ++ b.borders ++ o.captions b ++ b.cornerLabels o.textScale

def plotData (data : Expr) (o : Options) : Except EvalError Expr := do
  let ps ← (← Argument.elements procedure data).mapM (readPoint procedure)
  match Extent.ofPoints? ps with
  | none => .error (.unusable procedure .noData)
  | some b => return Expr.list (scene b ps o)

/-- the options are read before the data -/
def plot : List Expr → Except EvalError Expr
  | [data] => plotData data Options.default
  | [data, options] => do plotData data (← Options.read procedure options)
  | _ => .error (.argumentCount procedure)

end Discrete

end ChartLisp.Plot
