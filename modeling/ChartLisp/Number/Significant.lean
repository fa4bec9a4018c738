import ChartLisp.Number.Shortest

/-!
# A fixed count of significant digits

* `roundAt`           the exact quotient rounded to a multiple of a power of ten, ties to even;
* `roundSignificant`  the exact quotient rounded to `count` significant digits;
* `significant?`      its text without trailing zeros: positional while the leading digit stands
                      between the fourth place behind the point and the `count`-th before it,
                      scientific otherwise.

Rounding may raise the leading digit's exponent (`9.96` to two digits is `10`), so the choice of
the form looks at the rounded number.  The positional form rounds the quotient anew, to as many
places behind the point as the leading digit of the rounded number leaves.

A text has at most `placesLimit` places behind its point before trailing zeros are dropped, and with
more there is none.  Counts are compared as signed words, and one that is no such word counts as the
greatest of them for the choice of the form and as zero for the number of places.
-/

namespace ChartLisp.Number

/-- `n / d` rounded to a multiple of `10 ^ j`, for `0 < d` -/
def roundAt (n d : Nat) (j : Int) : Decimal := ⟨roundDiv (n * tenDown j) (d * tenUp j), j⟩

/-- exponent of the last of `count` digits, of which the first has the exponent `leading` -/
def lastPlace (leading : Int) (count : Nat) : Int := leading - (count - 1 : Nat)

def roundSignificant (n d count : Nat) : Decimal := roundAt n d (lastPlace (magnitude n d) count)

def placesLimit : Nat := 65535

def maxSigned : Nat := 9223372036854775807

def toSigned? (n : Nat) : Option Int := if n ≤ maxSigned then some n else none

/-- exponents of the leading digit that are written positionally -/
def isPositional (count : Nat) (leading : Int) : Bool :=
  decide (-4 ≤ leading) && decide (leading < (toSigned? count).getD maxSigned)

/-- how many places behind the point show `count` digits from the leading one on -/
def decimals (count : Nat) (leading : Int) : Nat := ((toSigned? count).getD 0 - 1 - leading).toNat

/-- text of `n / d`, for `0 < n`, `0 < d` and `0 < count` -/
def quotientText? (n d count : Nat) : Option String :=
  if placesLimit < count - 1 then none
  else
    let r := roundSignificant n d count
    if isPositional count r.leading then
      let places := decimals count r.leading
      if placesLimit < places then none
      else some (roundAt n d (-places)).trim.positional
    else some r.trim.scientific

def significant? (x : Float) (count : Nat) : Option String :=
  if x.isFinite then
    let b := Binary.ofFloat x
    if b.mantissa = 0 then some "0"
    else
      let sign := if b.negative then "-" else ""
      (quotientText? (b.mantissa * twoUp b.exponent) (twoDown b.exponent) (max count 1)).map
        (sign ++ ·)
  else some (text x)

/-- the leading digit of a positional text stands at the fourth place at the lowest -/
theorem quotientText?_isSome (n d : Nat) {count : Nat} (h : count + 3 ≤ placesLimit) :
    (quotientText? n d count).isSome = true := by
  have hcount : toSigned? count = some (count : Int) := by
    refine if_pos (Nat.le_trans ?_ (by decide : placesLimit ≤ maxSigned))
    omega
  unfold quotientText?
  dsimp only
  rw [if_neg (by omega)]
  split
  · rename_i hform
    have hleading : -4 ≤ (roundSignificant n d count).leading := by
      simp only [isPositional, Bool.and_eq_true, decide_eq_true_eq] at hform
      exact hform.1
    rw [if_neg]
    · rfl
    · rw [decimals, hcount, Option.getD_some]
      omega
  · rfl

theorem significant?_isSome (x : Float) {count : Nat} (h : count + 3 ≤ placesLimit) :
    (significant? x count).isSome = true := by
  have hmax : max count 1 + 3 ≤ placesLimit := by
    rw [placesLimit] at h ⊢
    omega
  unfold significant?
  dsimp only
  split
  · split
    · rfl
    · rw [Option.isSome_map]
      exact quotientText?_isSome _ _ hmax
  · rfl

end ChartLisp.Number
