import ChartLisp.Expr

/-!
# Graphic primitives

What a plot is made of: points, lines between two points, and texts placed at a point.  Each is an
expression whose properties say what it is and how it is drawn.
-/

namespace ChartLisp.Plot

def kindKey : String := "object-name"

/-- the list `(x y)`, drawn as a dot of the given size -/
def point (x y size : Double) : Expr :=
  ((Expr.list [Expr.number x, Expr.number y]).setProperty kindKey (Expr.string "point")).setProperty
    "size" (Expr.number size)

def place (x y : Double) : Expr := point x y 0

def line (start stop : Expr) : Expr :=
  ((Expr.list [start, stop]).setProperty kindKey (Expr.string "line")).setProperty
    "thickness" (Expr.number 0)

/-- a string drawn at a point, turned by `rotation` radians -/
def label (text : String) (position : Expr) (scale rotation : Double) : Expr :=
  ((((Expr.string text).setProperty kindKey (Expr.string "text")).setProperty
    "position" position).setProperty
    "text-scale" (Expr.number scale)).setProperty
    "text-rotation" (Expr.number rotation)

end ChartLisp.Plot
