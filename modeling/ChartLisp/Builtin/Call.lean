import ChartLisp.Builtin
import ChartLisp.Builtin.Analysis
import ChartLisp.Builtin.Arithmetic
import ChartLisp.Builtin.Lists
import ChartLisp.Event
import ChartLisp.Plot.Discrete

/-!
# Calling a built-in procedure

* `Builtin.run`     the procedure itself, which refuses a wrong number of arguments by itself
* `Builtin.call`    the procedure behind a check of the number of arguments
* `Builtin.events`  what a call that succeeds leaves in the log
-/

namespace ChartLisp.Builtin

def run : Builtin → List Expr → Except EvalError Expr
  | .add => Arithmetic.sum
  | .subtract => Arithmetic.difference
  | .multiply => Arithmetic.product
  | .divide => Arithmetic.quotient
  | .power => Arithmetic.power
  | .sqrt => Arithmetic.root
  | .ln => Analysis.logarithm
  | .sin => Analysis.sin
  | .cos => Analysis.cos
  | .tan => Analysis.tan
  | .real => Analysis.real
  | .imag => Analysis.imag
  | .mag => Analysis.mag
  | .arg => Analysis.arg
  | .conj => Analysis.conj
  | .list => fun args => .ok (Expr.list args)
  | .first => Lists.first
  | .rest => Lists.rest
  | .length => Lists.length
  | .append => Lists.append
  | .join => Lists.join
  | .range => Lists.range
  | .discretePlot => Plot.Discrete.plot

def call (b : Builtin) (args : List Expr) : Except EvalError Expr :=
  if b.accepts args.length then b.run args else .error (.argumentCount b.name)

/-- a plot of data points reports how many there are and how many primitives show them -/
def events : Builtin → List Expr → Expr → List Event
  | .discretePlot, data :: _, value => [.plottedPoints data.tail.length value.tail.length]
  | _, _, _ => []

end ChartLisp.Builtin
