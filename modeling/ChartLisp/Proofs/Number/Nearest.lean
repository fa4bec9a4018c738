import ChartLisp.Proofs.Number.Rounding
import Mathlib.Tactic.Ring

/-!
# The nearest double is monotone

Rounding a quotient keeps order: a greater quotient is never rounded to a smaller double.  So the
double nearest to a rational number is a monotone function of the number alone.

* `roundDiv_spec`, `roundDiv_le_roundDiv`   what a quotient rounds to; rounding keeps order
* `nearestBits_mono`                        the magnitude bits of the nearest double keep order
* `nearestKey`                              the place of the double nearest to a number
* `nearestKey_mono`, `nearestKey_neg`       it keeps order and changes sign with the number
-/

namespace ChartLisp.Number

/-! ## Quotients -/

/-- the rounded quotient is at most a half away, and less than a half if it is odd -/
theorem roundDiv_spec {n d : Nat} (hd : 0 < d) :
    2 * (roundDiv n d * d) ≤ 2 * n + d ∧ 2 * n ≤ 2 * (roundDiv n d * d) + d ∧
      (roundDiv n d % 2 = 1 →
        2 * (roundDiv n d * d) < 2 * n + d ∧ 2 * n < 2 * (roundDiv n d * d) + d) := by
  have hn : n / d * d + n % d = n := Nat.div_add_mod' n d
  have hr : n % d < d := Nat.mod_lt n hd
  unfold roundDiv
  generalize n / d = q at hn ⊢
  generalize n % d = r at hn hr ⊢
  dsimp only
  split
  · omega
  · split
    · rw [Nat.add_mul]
      omega
    · obtain heven | hodd := Nat.mod_two_eq_zero_or_one q
      · rw [heven, Nat.add_zero]
        omega
      · rw [hodd, Nat.add_mul]
        omega

theorem roundDiv_le_roundDiv {n d n' d' : Nat} (hd : 0 < d) (hd' : 0 < d')
    (h : n * d' ≤ n' * d) : roundDiv n d ≤ roundDiv n' d' := by
  obtain ⟨hlo, -, hodd⟩ := roundDiv_spec (n := n) hd
  obtain ⟨-, hhi, hodd'⟩ := roundDiv_spec (n := n') hd'
  generalize roundDiv n d = m at hlo hodd ⊢
  generalize roundDiv n' d' = m' at hhi hodd' ⊢
  by_contra hlt
  have hD : 0 < d * d' := Nat.mul_pos hd hd'
  -- both quotients are half way between `m'` and `m`, one of which is odd
  have hlo' : 2 * (m * (d * d')) ≤ 2 * (n * d') + d * d' := by
    have := Nat.mul_le_mul_right d' hlo
    linarith
  have hhi' : 2 * (n' * d) ≤ 2 * (m' * (d * d')) + d * d' := by
    have := Nat.mul_le_mul_right d hhi
    linarith
  have hm : m = m' + 1 := by
    have hle : m * (d * d') ≤ (m' + 1) * (d * d') := by
      rw [Nat.add_mul]
      omega
    have := Nat.le_of_mul_le_mul_right hle hD
    omega
  subst hm
  rw [Nat.add_mul] at hlo'
  obtain heven | hoddm := Nat.mod_two_eq_zero_or_one m'
  · have := (hodd (by omega)).1
    have := Nat.mul_lt_mul_of_pos_right this hd'
    rw [Nat.add_mul] at this
    nlinarith
  · have := (hodd' hoddm).2
    have := Nat.mul_lt_mul_of_pos_right this hd
    nlinarith

theorem roundDiv_mul_self {m d : Nat} (hd : 0 < d) : roundDiv (m * d) d = m :=
  roundDiv_eq hd (by omega) (by omega) fun _ => by omega

theorem roundDiv_le {n d m : Nat} (hd : 0 < d) (h : n ≤ m * d) : roundDiv n d ≤ m := by
  have hscaled : n * d ≤ m * d * d := Nat.mul_le_mul_right d h
  have := roundDiv_le_roundDiv hd hd hscaled
  rwa [roundDiv_mul_self hd] at this

theorem le_roundDiv {n d m : Nat} (hd : 0 < d) (h : m * d ≤ n) : m ≤ roundDiv n d := by
  have hscaled : m * d * d ≤ n * d := Nat.mul_le_mul_right d h
  have := roundDiv_le_roundDiv hd hd hscaled
  rwa [roundDiv_mul_self hd] at this

/-! ## Magnitude bits -/

/-- the exponent that `n / d` is rounded with -/
def roundingExponent (n d : Nat) : Int := max leastExponent (bitMagnitude n d - 52)

/-- the mantissa that `n / d` is rounded to, possibly one too many -/
def roundedMantissa (n d : Nat) : Nat :=
  roundDiv (n * twoDown (roundingExponent n d)) (d * twoUp (roundingExponent n d))

theorem nearestBits_of_pos {n : Nat} (hn : 0 < n) (d : Nat) :
    nearestBits n d =
      min ((roundingExponent n d - leastExponent).toNat * Nat.pow 2 52 + roundedMantissa n d)
        infinityBits := by
  unfold nearestBits
  rw [if_neg hn.ne']
  rfl

/-- a quotient in units of `2 ^ e`, against a whole number of them -/
theorem scaled_le_iff {n d m : Nat} (hd : 0 < d) (e : Int) :
    (n * twoDown e ≤ m * (d * twoUp e) ↔ (n / d : ℚ) ≤ m * 2 ^ e) ∧
      (m * (d * twoUp e) ≤ n * twoDown e ↔ (m * 2 ^ e : ℚ) ≤ n / d) := by
  have hd' : (0 : ℚ) < d := Nat.cast_pos.mpr hd
  have hdown : (0 : ℚ) < twoDown e := Nat.cast_pos.mpr (twoDown_pos e)
  have hup := twoUp_eq e
  constructor
  · rw [← Nat.cast_le (α := ℚ), div_le_iff₀ hd']
    push_cast
    rw [hup, show (m : ℚ) * (d * (2 ^ e * twoDown e)) = m * 2 ^ e * d * twoDown e by ring]
    exact mul_le_mul_iff_left₀ hdown
  · rw [← Nat.cast_le (α := ℚ), le_div_iff₀ hd']
    push_cast
    rw [hup, show (m : ℚ) * (d * (2 ^ e * twoDown e)) = m * 2 ^ e * d * twoDown e by ring]
    exact mul_le_mul_iff_left₀ hdown

theorem roundedMantissa_le {n d : Nat} (hd : 0 < d) : roundedMantissa n d ≤ 2 ^ 53 := by
  refine roundDiv_le (Nat.mul_pos hd (twoUp_pos _)) ((scaled_le_iff hd _).1.mpr ?_)
  have hmag := lt_bitMagnitude (n := n) hd
  have hexp : bitMagnitude n d + 1 ≤ 53 + roundingExponent n d := by
    unfold roundingExponent
    omega
  calc (n / d : ℚ) ≤ 2 ^ (bitMagnitude n d + 1) := hmag.le
    _ ≤ 2 ^ (53 + roundingExponent n d) := zpow_le_zpow_right₀ one_le_two hexp
    _ = ((2 ^ 53 : Nat) : ℚ) * 2 ^ roundingExponent n d := by
      rw [two_zpow_add]
      norm_num

/-- above the least exponent the mantissa fills its 53 bits -/
theorem le_roundedMantissa {n d : Nat} (hn : 0 < n) (hd : 0 < d)
    (he : leastExponent < roundingExponent n d) : 2 ^ 52 ≤ roundedMantissa n d := by
  refine le_roundDiv (Nat.mul_pos hd (twoUp_pos _)) ((scaled_le_iff hd _).2.mpr ?_)
  have hmag := bitMagnitude_le hn hd
  have hexp : 52 + roundingExponent n d = bitMagnitude n d := by
    unfold roundingExponent at he ⊢
    omega
  calc ((2 ^ 52 : Nat) : ℚ) * 2 ^ roundingExponent n d = 2 ^ (52 + roundingExponent n d) := by
        rw [two_zpow_add]
        norm_num
    _ = 2 ^ bitMagnitude n d := by rw [hexp]
    _ ≤ n / d := hmag

theorem nearestBits_mono {n d n' d' : Nat} (hd : 0 < d) (hd' : 0 < d')
    (h : (n / d : ℚ) ≤ n' / d') : nearestBits n d ≤ nearestBits n' d' := by
  obtain rfl | hn := Nat.eq_zero_or_pos n
  · simp [nearestBits]
  have hcross : n * d' ≤ n' * d := by
    rw [div_le_div_iff₀ (Nat.cast_pos.mpr hd) (Nat.cast_pos.mpr hd')] at h
    exact_mod_cast h
  have hn' : 0 < n' := by
    refine Nat.pos_of_ne_zero fun hzero => ?_
    have := Nat.mul_pos hn hd'
    rw [hzero] at hcross
    omega
  have hmag : bitMagnitude n d < bitMagnitude n' d' + 1 :=
    lt_of_two_zpow_lt ((bitMagnitude_le hn hd).trans_lt (h.trans_lt (lt_bitMagnitude hd')))
  have hexp : roundingExponent n d ≤ roundingExponent n' d' := by
    unfold roundingExponent
    omega
  rw [nearestBits_of_pos hn, nearestBits_of_pos hn', Nat.pow_eq]
  refine min_le_min_right _ ?_
  have hleast : leastExponent ≤ roundingExponent n d := le_max_left _ _
  obtain heq | hlt := hexp.eq_or_lt
  · have hround : roundedMantissa n d ≤ roundedMantissa n' d' := by
      unfold roundedMantissa
      rw [heq]
      refine roundDiv_le_roundDiv (Nat.mul_pos hd (twoUp_pos _)) (Nat.mul_pos hd' (twoUp_pos _)) ?_
      have := Nat.mul_le_mul_right
        (twoDown (roundingExponent n' d') * twoUp (roundingExponent n' d')) hcross
      linarith
    rw [heq]
    omega
  · -- the mantissa below is at most `2 ^ 53`, which is the least one at the next exponent
    have hbelow := roundedMantissa_le (n := n) hd
    have habove := le_roundedMantissa hn' hd' (hleast.trans_lt hlt)
    omega

/-- the nearest double depends on the quotient only -/
theorem nearestBits_congr {n d n' d' : Nat} (hd : 0 < d) (hd' : 0 < d')
    (h : (n / d : ℚ) = n' / d') : nearestBits n d = nearestBits n' d' :=
  le_antisymm (nearestBits_mono hd hd' h.le) (nearestBits_mono hd' hd h.ge)

/-! ## Signed numbers -/

/-- the place, among all doubles, of the one nearest to `q` -/
def nearestKey (q : ℚ) : Int :=
  if q < 0 then -(nearestBits q.num.natAbs q.den : Int) else nearestBits q.num.natAbs q.den

theorem natAbs_num_div_den {q : ℚ} (h : 0 ≤ q) : (q.num.natAbs / q.den : ℚ) = q := by
  have hnum : (q.num.natAbs : ℚ) = q.num := by
    rw [Nat.cast_natAbs, abs_of_nonneg (Rat.num_nonneg.mpr h)]
  rw [hnum, Rat.num_div_den]

theorem nearestKey_div {n d : Nat} (hd : 0 < d) : nearestKey (n / d) = nearestBits n d := by
  have hq : (0 : ℚ) ≤ n / d := div_nonneg (Nat.cast_nonneg n) (Nat.cast_nonneg d)
  unfold nearestKey
  rw [if_neg (not_lt.mpr hq)]
  exact_mod_cast nearestBits_congr (Rat.den_pos _) hd (natAbs_num_div_den hq)

@[simp] theorem nearestKey_zero : nearestKey 0 = 0 := by
  simp [nearestKey, nearestBits]

theorem nearestKey_neg (q : ℚ) : nearestKey (-q) = -nearestKey q := by
  unfold nearestKey
  rw [Rat.neg_num, Rat.neg_den, Int.natAbs_neg]
  obtain hneg | rfl | hpos := lt_trichotomy q 0
  · rw [if_pos hneg, if_neg (by linarith), neg_neg]
  · simp [nearestBits]
  · rw [if_neg hpos.le.not_gt, if_pos (by linarith)]

theorem nearestKey_nonneg {q : ℚ} (h : 0 ≤ q) : 0 ≤ nearestKey q := by
  unfold nearestKey
  rw [if_neg (not_lt.mpr h)]
  exact Int.natCast_nonneg _

theorem nearestKey_mono {q r : ℚ} (h : q ≤ r) : nearestKey q ≤ nearestKey r := by
  have hpos {q r : ℚ} (hq : 0 ≤ q) (h : q ≤ r) : nearestKey q ≤ nearestKey r := by
    unfold nearestKey
    rw [if_neg (not_lt.mpr hq), if_neg (not_lt.mpr (hq.trans h))]
    refine Int.ofNat_le.mpr (nearestBits_mono (Rat.den_pos q) (Rat.den_pos r) ?_)
    rwa [natAbs_num_div_den hq, natAbs_num_div_den (hq.trans h)]
  obtain hq | hq := le_total 0 q
  · exact hpos hq h
  · obtain hr | hr := le_total r 0
    · have := hpos (q := -r) (r := -q) (by linarith) (by linarith)
      rw [nearestKey_neg, nearestKey_neg] at this
      omega
    · have hneg := nearestKey_nonneg (q := -q) (by linarith)
      have := nearestKey_nonneg hr
      rw [nearestKey_neg] at hneg
      omega

end ChartLisp.Number
