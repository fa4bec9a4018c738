import ChartLisp.Plot.Primitive

/-!
# The extent of the data, and the square it is drawn in

Every plot is stretched into a square.  Drawn heights grow downwards.

* `Point`                       a data point
* `Extent`                      least and greatest coordinates
* `Extent.ofPoints?`            the extent of a list of points
* `Extent.mapX`, `Extent.mapY`  data coordinates to drawn coordinates
* `Extent.borders`              the four borders and the axes that cross the square
* `Extent.cornerLabels`         the four numbers at its corners
-/

namespace ChartLisp.Plot

def side : Double := 20

def labelGap : Double := 2

def labelPrecision : Nat := 2

structure Point where
  x : Double
  y : Double
deriving DecidableEq

structure Extent where
  xMin : Double
  xMax : Double
  yMin : Double
  yMax : Double
deriving DecidableEq

/-- the least of the numbers, the first of several equal ones -/
def least (x : Double) (xs : List Double) : Double := xs.foldl (fun m y => if y < m then y else m) x

/-- the greatest of the numbers, the last of several equal ones -/
def greatest (x : Double) (xs : List Double) : Double := xs.foldl (fun m y => if y < m then m else y) x

namespace Extent

def ofPoints? : List Point → Option Extent
  | [] => none
  | p :: ps =>
    let xs := ps.map Point.x
    let ys := ps.map Point.y
    some ⟨least p.x xs, greatest p.x xs, least p.y ys, greatest p.y ys⟩

/-- the factor from `high - low` to the side of the square; one if there is nothing to stretch -/
def stretch (low high : Double) : Double :=
  let width := high - low
  if 0 < width then side / width else 1

def mapX (b : Extent) (x : Double) : Double := x * stretch b.xMin b.xMax

def mapY (b : Extent) (y : Double) : Double := -y * stretch b.yMin b.yMax

def left (b : Extent) : Double := b.mapX b.xMin

def right (b : Extent) : Double := b.mapX b.xMax

def top (b : Extent) : Double := b.mapY b.yMax

def bottom (b : Extent) : Double := b.mapY b.yMin

def hasXAxis (b : Extent) : Bool := decide (b.yMin < 0) && decide (0 < b.yMax)

def hasYAxis (b : Extent) : Bool := decide (b.xMin < 0) && decide (0 < b.xMax)

/-- where the stems of points end: on the x axis if it lies inside, else on the border next to it -/
def stemFoot (b : Extent) : Double :=
  if b.hasXAxis then 0 else if 0 ≤ b.yMin then b.bottom else b.top

def axes (b : Extent) : List Expr :=
  (if b.hasXAxis then [line (place b.left 0) (place b.right 0)] else []) ++
    (if b.hasYAxis then [line (place 0 b.bottom) (place 0 b.top)] else [])

/-- top, bottom, left and right border, then the axes -/
def borders (b : Extent) : List Expr :=
  [line (place b.left b.top) (place b.right b.top),
    line (place b.left b.bottom) (place b.right b.bottom),
    line (place b.left b.top) (place b.left b.bottom),
    line (place b.right b.top) (place b.right b.bottom)] ++ b.axes

/-- few enough digits for every number to have a text -/
def labelText (value : Double) : String :=
  (value.significant? labelPrecision).get (Number.significant?_isSome value.float (by decide))

def cornerLabel (scale value x y : Double) : Expr :=
  label (labelText value) (place x y) scale 0

/-- least and greatest x below the square, least and greatest y left of it -/
def cornerLabels (b : Extent) (scale : Double) : List Expr :=
  [cornerLabel scale b.xMin b.left (b.bottom + labelGap),
    cornerLabel scale b.xMax b.right (b.bottom + labelGap),
    cornerLabel scale b.yMin (b.left - labelGap) b.bottom,
    cornerLabel scale b.yMax (b.left - labelGap) b.top]

end Extent

end ChartLisp.Plot
