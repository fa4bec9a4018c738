import ChartLisp.Number.Binary
import ChartLisp.Number.Decimal

/-!
# The fewest digits that read back

A double stands for every real number that rounds to it: an interval around its value whose ends
belong to it exactly if its mantissa is even.  The text of a double is the decimal number of the
coarsest decimal grid that has a point in this interval; of two such points the nearer one is
taken, and the upper one if they are equally near.

* `Cell`           a finite non-zero double as its mantissa and exponent;
* `Cell.holds`     whether a decimal number lies in the interval;
* `Cell.shortest`  the search through finer and finer grids.  The grid of the double's own binary
                   exponent holds its value exactly, so the search ends there at the latest;
* `text`           the written form, with the words for what is not a finite number.

Distances are measured in quarters of the double's last place, in which all ends are whole.
-/

namespace ChartLisp.Number

/-- the double `mantissa * 2 ^ exponent`, in the form `Binary.ofFloat` gives it -/
structure Cell where
  mantissa : Nat
  exponent : Int

namespace Cell

/-- value of the double, in quarters of its last place -/
def centre (c : Cell) : Nat := 4 * c.mantissa

def upper (c : Cell) : Nat := 4 * c.mantissa + 2

/-- lower end of its interval; below a power of two the doubles lie twice as close -/
def lower (c : Cell) : Nat :=
  if c.mantissa = Nat.pow 2 52 ∧ c.exponent ≠ leastExponent then 4 * c.mantissa - 1
  else 4 * c.mantissa - 2

/-- a unit of the grid `10 ^ j`, scaled to a whole number -/
def unit (c : Cell) (j : Int) : Nat := tenUp j * twoDown (c.exponent - 2)

/-- a quarter of the last place, scaled by the same factor as `unit` -/
def quarter (c : Cell) (j : Int) : Nat := tenDown j * twoUp (c.exponent - 2)

/-- whether `k * 10 ^ j` lies in the interval of the double -/
def holds (c : Cell) (j : Int) (k : Nat) : Bool :=
  let p := k * c.unit j
  let lo := c.lower * c.quarter j
  let hi := c.upper * c.quarter j
  -- a tie goes to the even mantissa, so the ends belong to it
  if c.mantissa % 2 = 0 then decide (lo ≤ p) && decide (p ≤ hi)
  else decide (lo < p) && decide (p < hi)

def below (c : Cell) (j : Int) : Nat := c.centre * c.quarter j / c.unit j

def nearerBelow (c : Cell) (j : Int) : Bool :=
  2 * (c.centre * c.quarter j % c.unit j) < c.unit j

/-- the first hit on the grids `10 ^ j`, `10 ^ (j - 1)`, …, at most `steps` of them before the one
that is taken without a test -/
def search (c : Cell) : Nat → Int → Decimal
  | 0, j => ⟨c.below j, j⟩
  | steps + 1, j =>
    let k := c.below j
    match c.holds j k, c.holds j (k + 1) with
    | true, true => ⟨if c.nearerBelow j then k else k + 1, j⟩
    | true, false => ⟨k, j⟩
    | false, true => ⟨k + 1, j⟩
    | false, false => search c steps (j - 1)

def shortest (c : Cell) : Decimal :=
  let top := magnitude (c.mantissa * twoUp c.exponent) (twoDown c.exponent) + 1
  c.search (top - min c.exponent 0).toNat top

end Cell

def magnitudeText (x : Float) : String :=
  if x.isInf then "inf"
  else
    let b := Binary.ofFloat x
    if b.mantissa = 0 then "0" else (Cell.shortest ⟨b.mantissa, b.exponent⟩).positional

/-- text of a double: the fewest digits that read back, always positional -/
def text (x : Float) : String :=
  if x.isNaN then "NaN"
  else (if signBit x then "-" else "") ++ magnitudeText x

end ChartLisp.Number
