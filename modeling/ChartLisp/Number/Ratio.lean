/-!
# Quotients of natural numbers

Every exact number text is decided on a quotient `n / d` of natural numbers with `0 < d`.

* `roundDiv`     the nearest whole number, a half going to the even neighbour;
* `digitCount`   how many decimal digits a natural number has;
* `magnitude`    the decimal exponent of the leading digit of `n / d`;
* `bitMagnitude` the same in base two;
* `tenUp`, `tenDown`, `twoUp`, `twoDown`  the two halves of a signed power, so that a factor
  `10 ^ j` or `2 ^ j` stays a multiplication on one side or the other.
-/

namespace ChartLisp.Number

/-- the whole number nearest to `n / d`, a half going to the even neighbour -/
def roundDiv (n d : Nat) : Nat :=
  let q := n / d
  let r := n % d
  if 2 * r < d then q
  else if d < 2 * r then q + 1
  else q + q % 2

def digitCount (n : Nat) : Nat := (Nat.toDigits 10 n).length

/-- the `k` with `10 ^ k ≤ n / d < 10 ^ (k + 1)`, for `0 < n` and `0 < d`: multiplied by
`10 ^ digitCount d` the quotient is at least one, and its whole part has the digits to count -/
def magnitude (n d : Nat) : Int :=
  let s := digitCount d
  (digitCount (n * Nat.pow 10 s / d) : Int) - 1 - s

/-- the `k` with `2 ^ k ≤ n / d < 2 ^ (k + 1)`, for `0 < n` and `0 < d` -/
def bitMagnitude (n d : Nat) : Int :=
  let s := d.log2 + 1
  ((n * Nat.pow 2 s / d).log2 : Int) - s

/-! ## Signed powers -/

/-- `10 ^ j` if `j` is positive, else one -/
def tenUp (j : Int) : Nat := Nat.pow 10 j.toNat

def tenDown (j : Int) : Nat := Nat.pow 10 (-j).toNat

def twoUp (j : Int) : Nat := Nat.pow 2 j.toNat

def twoDown (j : Int) : Nat := Nat.pow 2 (-j).toNat

end ChartLisp.Number
