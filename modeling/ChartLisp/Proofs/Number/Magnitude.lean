import ChartLisp.Proofs.Number.Midpoint

/-!
# How large a rounded number is

* `representable_two_zpow`        powers of two are doubles
* `Nearest.isFinite_of_abs_le`    what is not too large is rounded to a finite double
* `Nearest.le_two_mul_value`, `Nearest.value_le_two_mul`   rounding changes a number by less than a
                                  factor of two
* `abs_value_le_mul_sub`          different doubles are not much closer than they are large
* `isFinite_add_of_largest`, `isFinite_sub_of_largest`   a shift that leaves the largest double finite
                                  leaves every double finite
* `isFinite_multiple`             the same for multiples of a part
* `Nearest.eq_infinity`, `add_infinity`, `isNaN_add`   where infinity and NaN come from
-/

namespace ChartLisp.Number

open Float.Model (UnpackedFloat)
open Float.Model.UnpackedFloat (Sign)

variable {x y z : Float} {q : ℚ}

/-! ## The other sign -/

theorem nearest_neg (hx : x.isFinite = true) : Nearest (-x) (-value x) :=
  (reads_unpack hx).neg.nearest

theorem orderKey_neg (hx : x.isFinite = true) : orderKey (-x) = -orderKey x := by
  rw [(nearest_neg hx).key, nearestKey_neg, nearestKey_value hx]

theorem isFinite_neg (hx : x.isFinite = true) : (-x).isFinite = true := by
  have hkey := (isFinite_iff_orderKey (isNaN_eq_false hx)).mp hx
  rw [isFinite_iff_orderKey (nearest_neg hx).notNaN, orderKey_neg hx]
  omega

theorem abs_value_neg (hx : x.isFinite = true) : |value (-x)| = |value x| := by
  have hkey := orderKey_neg hx
  rw [orderKey_eq, orderKey_eq] at hkey
  rw [abs_value, abs_value]
  refine absValue_congr ?_
  split at hkey <;> split at hkey <;> omega

theorem neg_le_neg_float (hx : x.isFinite = true) (hy : y.isFinite = true) (h : x ≤ y) :
    -y ≤ -x :=
  (nearest_neg hy).mono (nearest_neg hx) (neg_le_neg ((le_iff_value hx hy).mp h))

/-! ## Powers of two -/

theorem representable_two_zpow {k : Int} (hlo : leastExponent ≤ k) (hhi : k ≤ 1023) :
    Representable (2 ^ k) := by
  have hinfinity : infinityBits = 2047 * 2 ^ 52 := rfl
  by_cases hsmall : k < leastExponent + 52
  · -- a subnormal number, with a single bit in its mantissa
    obtain ⟨n, rfl⟩ : ∃ n : Nat, k = leastExponent + n := ⟨(k - leastExponent).toNat, by omega⟩
    have hpow : 2 ^ n < 2 ^ 52 := Nat.pow_lt_pow_right one_lt_two (by omega)
    have hr := representable_cell .positive (c := ⟨2 ^ n, leastExponent⟩)
      ⟨Nat.two_pow_pos n, hpow.trans (by norm_num), le_rfl, fun h => absurd rfl h⟩
      (by rw [sub_self, Int.toNat_zero, zero_mul, zero_add]; exact hpow.trans (by decide))
    have hvalue : ((Sign.positive.apply 1 : Int) : ℚ) * ((2 ^ n : Nat) * 2 ^ leastExponent) =
        2 ^ (leastExponent + n) := by
      rw [two_zpow_add, zpow_natCast, show Sign.positive.apply 1 = 1 from rfl]
      push_cast
      ring
    rwa [hvalue] at hr
  · have hr := representable_cell .positive (c := ⟨2 ^ 52, k - 52⟩)
      ⟨by norm_num, by norm_num, by dsimp only; omega, fun _ => le_rfl⟩
      (by dsimp only [leastExponent] at *; omega)
    have hvalue : ((Sign.positive.apply 1 : Int) : ℚ) * ((2 ^ 52 : Nat) * 2 ^ (k - 52)) = 2 ^ k := by
      rw [zpow_sub₀ two_ne_zero, show Sign.positive.apply 1 = 1 from rfl]
      norm_num
      ring
    rwa [hvalue] at hr

/-! ## Size -/

namespace Nearest

theorem isFinite_of_abs_le (hz : Nearest z q) (h : |q| ≤ 2 ^ (1023 : Int)) :
    z.isFinite = true := by
  obtain ⟨u, hu, hvalue⟩ := representable_two_zpow (k := 1023) (by decide) le_rfl
  obtain ⟨hlo, hhi⟩ := abs_le.mp h
  rw [← hvalue] at hlo hhi
  exact isFinite_of_between (isFinite_neg hu) hu hz.notNaN ((nearest_neg hu).mono hz hlo)
    (hz.ge_of_ge hu hhi)

/-- what is rounded to a finite double is smaller than the power of two behind the largest one -/
theorem lt_two_zpow (hz : Nearest z q) (hfinite : z.isFinite = true) : q < 2 ^ (1024 : Int) := by
  by_contra hlarge
  have hcell := nearestKey_cell (c := ⟨2 ^ 52, 972⟩)
    ⟨by norm_num, by norm_num, by decide, fun _ => le_rfl⟩
  have hpow : ((2 ^ 52 : Nat) : ℚ) * 2 ^ (972 : Int) = 2 ^ (1024 : Int) := by
    rw [Nat.cast_pow, Nat.cast_ofNat, ← zpow_natCast, ← two_zpow_add]
    rfl
  have hbits : min ((972 - leastExponent).toNat * 2 ^ 52 + 2 ^ 52) infinityBits = infinityBits := by
    decide
  dsimp only at hcell
  rw [hpow, hbits] at hcell
  have hmono := nearestKey_mono (not_lt.mp hlarge)
  have hkey := ((isFinite_iff_orderKey hz.notNaN).mp hfinite).2
  rw [hz.key] at hkey
  omega

/-- the power of two below a number -/
theorem exists_two_zpow (hz : Nearest z q) (hfinite : z.isFinite = true)
    (hq : 2 ^ leastExponent ≤ q) :
    ∃ k : Int, leastExponent ≤ k ∧ k ≤ 1023 ∧ 2 ^ k ≤ q ∧ q < 2 ^ (k + 1) := by
  have hpos : 0 < q := (two_zpow_pos _).trans_le hq
  have hlo : (2 : ℚ) ^ Int.log 2 q ≤ q := by exact_mod_cast Int.zpow_log_le_self one_lt_two hpos
  have hhi : q < 2 ^ (Int.log 2 q + 1) := by
    exact_mod_cast Int.lt_zpow_succ_log_self one_lt_two q
  have hleast := lt_of_two_zpow_lt (hq.trans_lt hhi)
  have hbound := lt_of_two_zpow_lt (hlo.trans_lt (hz.lt_two_zpow hfinite))
  exact ⟨Int.log 2 q, by omega, by omega, hlo, hhi⟩

theorem le_two_mul_value (hz : Nearest z q) (hfinite : z.isFinite = true)
    (hq : 2 ^ leastExponent ≤ q) : q ≤ 2 * value z := by
  obtain ⟨k, hleast, hbound, hlo, hhi⟩ := hz.exists_two_zpow hfinite hq
  obtain ⟨u, hu, hvalue⟩ := representable_two_zpow hleast hbound
  have hle := (le_iff_value hu hfinite).mp (hz.le_of_le hu (hvalue.trans_le hlo))
  rw [zpow_add_one₀ two_ne_zero] at hhi
  rw [hvalue] at hle
  linarith

theorem value_le_two_mul (hz : Nearest z q) (hfinite : z.isFinite = true)
    (hq : 2 ^ leastExponent ≤ q) : value z ≤ 2 * q := by
  obtain ⟨k, hleast, hbound, hlo, hhi⟩ := hz.exists_two_zpow hfinite hq
  have hnext : value z ≤ 2 ^ (k + 1) := by
    by_cases hlast : k = 1023
    · rw [hlast]
      exact ((self hfinite).lt_two_zpow hfinite).le
    · obtain ⟨u, hu, hvalue⟩ := representable_two_zpow (k := k + 1) (by omega) (by omega)
      rw [← hvalue] at hhi ⊢
      exact (le_iff_value hfinite hu).mp (hz.ge_of_ge hu hhi.le)
  rw [zpow_add_one₀ two_ne_zero] at hnext
  linarith

end Nearest

/-! ## Distances -/

/-- a double as a whole number of units -/
theorem value_scaled (x : Float) :
    ∃ m e : Int, leastExponent ≤ e ∧ |(m : ℚ)| ≤ 2 ^ 53 ∧ value x = m * 2 ^ e := by
  by_cases hzero : value x = 0
  · exact ⟨0, leastExponent, le_rfl, by norm_num, by rw [hzero, Int.cast_zero, zero_mul]⟩
  obtain ⟨s, ⟨m, e⟩, ⟨-, hlt, hleast, -⟩, hvalue, -⟩ := value_cell hzero
  refine ⟨s.apply 1 * m, e, hleast, ?_, ?_⟩
  · have hm : (m : ℚ) ≤ 2 ^ 53 := by exact_mod_cast (show m < 2 ^ 53 from hlt).le
    have hsign : |((s.apply 1 : Int) : ℚ)| = 1 := by cases s <;> norm_num [Sign.apply]
    rw [Int.cast_mul, Int.cast_natCast, abs_mul, hsign, one_mul, Nat.abs_cast]
    exact hm
  · rw [hvalue, Int.cast_mul, Int.cast_natCast, mul_assoc]

/-- numbers of units of different size are apart by at least the smaller unit -/
theorem two_zpow_le_abs_sub {m n d e : Int} (hde : d ≤ e) (hne : (m * 2 ^ d : ℚ) ≠ n * 2 ^ e) :
    (2 : ℚ) ^ d ≤ |(m * 2 ^ d : ℚ) - n * 2 ^ e| := by
  obtain ⟨k, rfl⟩ : ∃ k : Nat, e = d + k := ⟨(e - d).toNat, by omega⟩
  have hscale : (m * 2 ^ d : ℚ) - n * 2 ^ (d + k) = ((m - n * 2 ^ k : Int) : ℚ) * 2 ^ d := by
    rw [two_zpow_add, zpow_natCast]
    push_cast
    ring
  have hwhole : m - n * 2 ^ k ≠ 0 := fun hzero => by
    rw [hzero, Int.cast_zero, zero_mul] at hscale
    exact hne (sub_eq_zero.mp hscale)
  have hone : (1 : ℚ) ≤ |((m - n * 2 ^ k : Int) : ℚ)| := by exact_mod_cast Int.one_le_abs hwhole
  rw [hscale, abs_mul, abs_of_pos (two_zpow_pos d)]
  exact le_mul_of_one_le_left (two_zpow_pos d).le hone

/-- Two different doubles are at least the least unit apart, and at least a part of their size that
the bits of a mantissa tell. -/
theorem abs_value_le_mul_sub (hne : value x ≠ value y) :
    2 ^ leastExponent ≤ |value x - value y| ∧ |value x| ≤ 2 ^ 54 * |value x - value y| := by
  obtain ⟨m, d, hd, hm, hx⟩ := value_scaled x
  obtain ⟨n, e, he, hn, hy⟩ := value_scaled y
  have hunit {k : Int} (hk : leastExponent ≤ k) : (2 : ℚ) ^ leastExponent ≤ 2 ^ k :=
    zpow_le_zpow_right₀ one_le_two hk
  -- the number with the smaller unit is at most `2 ^ 53` units large
  have hsize {m d : Int} {gap : ℚ} (hm : |(m : ℚ)| ≤ 2 ^ 53) (hgap : 2 ^ d ≤ gap) :
      |(m * 2 ^ d : ℚ)| ≤ 2 ^ 53 * gap := by
    rw [abs_mul, abs_of_pos (two_zpow_pos d)]
    exact mul_le_mul hm hgap (two_zpow_pos d).le (by norm_num)
  rw [hx, hy] at hne ⊢
  obtain hde | hed := le_total d e
  · have hgap := two_zpow_le_abs_sub hde hne
    have hbound := hsize hm hgap
    have := abs_nonneg ((m * 2 ^ d : ℚ) - n * 2 ^ e)
    exact ⟨(hunit hd).trans hgap, by linarith⟩
  · have hgap := two_zpow_le_abs_sub hed hne.symm
    rw [abs_sub_comm] at hgap
    have hbound := hsize hn hgap
    have htriangle := abs_sub_abs_le_abs_sub (m * 2 ^ d : ℚ) (n * 2 ^ e)
    have := abs_nonneg ((m * 2 ^ d : ℚ) - n * 2 ^ e)
    exact ⟨(hunit he).trans hgap, by linarith⟩

/-! ## Shifts and multiples -/

def largest : Float := ofMagnitudeBits false (infinityBits - 1)

theorem isFinite_largest : largest.isFinite = true := by decide

theorem orderKey_largest : orderKey largest = infinityBits - 1 := by decide

theorem value_le_largest (hx : x.isFinite = true) : value x ≤ value largest := by
  have hkey := ((isFinite_iff_orderKey (isNaN_eq_false hx)).mp hx).2
  rw [value_le_iff hx isFinite_largest, orderKey_largest]
  omega

theorem value_neg_largest_le (hx : x.isFinite = true) : value (-largest) ≤ value x := by
  have hkey := ((isFinite_iff_orderKey (isNaN_eq_false hx)).mp hx).1
  rw [value_le_iff (isFinite_neg isFinite_largest) hx, orderKey_neg isFinite_largest,
    orderKey_largest]
  omega

/-- a sum with a number that is not negative lies between the number and its sum with the largest
double -/
theorem isFinite_add_of_largest (hx : x.isFinite = true) (hy : y.isFinite = true)
    (hnonneg : 0 ≤ value y) (h : (largest + y).isFinite = true) : (x + y).isFinite = true := by
  have hsum := nearest_add hx hy
  have hle := value_le_largest hx
  refine isFinite_of_between hx h hsum.notNaN (hsum.le_of_le hx (by linarith)) ?_
  exact hsum.mono (nearest_add isFinite_largest hy) (by linarith)

theorem isFinite_sub_of_largest (hx : x.isFinite = true) (hy : y.isFinite = true)
    (hnonneg : 0 ≤ value y) (h : (-largest - y).isFinite = true) : (x - y).isFinite = true := by
  have hdiff := nearest_sub hx hy
  have hle := value_neg_largest_le hx
  refine isFinite_of_between h hx hdiff.notNaN ?_ (hdiff.ge_of_ge hx (by linarith))
  exact (nearest_sub (isFinite_neg isFinite_largest) hy).mono hdiff (by linarith)

/-- a part of a width, and its multiples up to the whole, are finite if they are so for the largest
double -/
theorem isFinite_multiple {w n i : Float} (hw : w.isFinite = true) (hnonneg : 0 ≤ value w)
    (hn : n.isFinite = true) (hpos : 0 < value n) (hi : i.isFinite = true) (hi0 : 0 ≤ value i)
    (hin : value i ≤ value n) (hpart : (largest / n).isFinite = true)
    (hwhole : (n * (largest / n)).isFinite = true) :
    (w / n).isFinite = true ∧ 0 ≤ value (w / n) ∧ (i * (w / n)).isFinite = true ∧
      0 ≤ value (i * (w / n)) := by
  have hstep := nearest_div hw hn hpos.ne'
  have hmost := nearest_div isFinite_largest hn hpos.ne'
  have hle : w / n ≤ largest / n :=
    hstep.mono hmost (div_le_div_of_nonneg_right (value_le_largest hw) hpos.le)
  have hzero : 0 ≤ w / n :=
    hstep.le_of_le isFinite_zero (value_zero.trans_le (div_nonneg hnonneg hpos.le))
  have hfinite := isFinite_of_between isFinite_zero hpart hstep.notNaN hzero hle
  have hvalue : 0 ≤ value (w / n) :=
    value_nonneg_of_nearest hstep hfinite (div_nonneg hnonneg hpos.le)
  have hmul := nearest_mul hi hfinite
  have hbound : i * (w / n) ≤ n * (largest / n) := by
    refine hmul.mono (nearest_mul hn hpart) ?_
    exact mul_le_mul hin ((le_iff_value hfinite hpart).mp hle) hvalue hpos.le
  have hmul0 : 0 ≤ i * (w / n) :=
    hmul.le_of_le isFinite_zero (value_zero.trans_le (mul_nonneg hi0 hvalue))
  have hmulFinite := isFinite_of_between isFinite_zero hwhole hmul.notNaN hmul0 hbound
  exact ⟨hfinite, hvalue, hmulFinite,
    value_nonneg_of_nearest hmul hmulFinite (mul_nonneg hi0 hvalue)⟩

/-! ## Infinity -/

theorem orderKey_infinity : orderKey (packed (.infinity .positive)) = infinityBits := by decide

theorem isNaN_infinity : (packed (.infinity .positive)).isNaN = false := by decide

theorem le_infinity (hx : x.isFinite = true) : x ≤ packed (.infinity .positive) := by
  rw [le_iff_orderKey (isNaN_eq_false hx) isNaN_infinity, orderKey_infinity]
  exact ((isFinite_iff_orderKey (isNaN_eq_false hx)).mp hx).2.le

theorem not_infinity_le (hx : x.isFinite = true) : ¬ packed (.infinity .positive) ≤ x := by
  rw [le_iff_orderKey isNaN_infinity (isNaN_eq_false hx), orderKey_infinity, not_le]
  exact ((isFinite_iff_orderKey (isNaN_eq_false hx)).mp hx).2

theorem orderKey_pos (h : 0 < x) : 0 < orderKey x := by
  have hnan := (notNaN_of_le (le_of_lt_float h)).2
  rw [lt_iff_orderKey (isNaN_eq_false isFinite_zero) hnan] at h
  exact h

/-- a finite number and the positive infinity have the positive infinity as their sum -/
theorem add_infinity (hx : x.isFinite = true) (hy : 0 < y) (hinf : y.isInf = true) :
    x + y = packed (.infinity .positive) := by
  have hsign : signOf y = .positive := by
    have hpos := orderKey_pos hy
    rw [orderKey_sign] at hpos
    cases hsign : signOf y with
    | positive => rfl
    | negative =>
      rw [hsign] at hpos
      dsimp only [Sign.apply] at hpos
      omega
  show packed (UnpackedFloat.add .binary64 x.toModel.unpack y.toModel.unpack) = _
  have hreads := reads_unpack hx
  have hunpacked := unpacked y
  generalize value x = q at hreads
  generalize x.toModel.unpack = u at hreads
  generalize y.toModel.unpack = v at hunpacked
  cases hunpacked with
  | infinity _ => cases hreads <;> rw [hsign] <;> rfl
  | nan h => exact absurd ((kind_iff y).2.1.mp hinf).2 ((kind_iff y).2.2.mp h).2
  | zero h _ => exact absurd hinf (Bool.eq_false_iff.mp (isInf_eq_false h))
  | finite h _ => exact absurd hinf (Bool.eq_false_iff.mp (isInf_eq_false h))

theorem isNaN_add (hy : y.isNaN = true) : (x + y).isNaN = true := by
  have hnan : (packed .notANumber).isNaN = true := by decide
  replace hy : y.toModel.unpack.isNaN = true := hy
  show (packed (UnpackedFloat.add .binary64 x.toModel.unpack y.toModel.unpack)).isNaN = true
  generalize x.toModel.unpack = u
  generalize y.toModel.unpack = v at hy
  cases v with
  | notANumber => cases u <;> exact hnan
  | infinity s => cases hy
  | zero s => cases hy
  | finite s m e hm => cases hy

/-- what is rounded to no finite number, and is not negative, is rounded to infinity -/
theorem Nearest.eq_infinity (hz : Nearest z q) (hq : 0 ≤ q) (h : ¬ z.isFinite = true) :
    z = packed (.infinity .positive) := by
  have hkey : 0 ≤ orderKey z := by
    rw [hz.key]
    exact nearestKey_nonneg hq
  have hbits : magnitudeBits z = infinityBits := by
    refine magnitudeBits_of_isInf ?_
    by_contra hinf
    exact h (isFinite_of_eq_false hz.notNaN (Bool.eq_false_of_not_eq_true hinf))
  have hsign : signBit z = false := by
    have hpos : 0 < infinityBits := by decide
    refine Bool.eq_false_of_not_eq_true fun hneg => ?_
    rw [orderKey_eq, if_pos hneg, hbits] at hkey
    omega
  rw [← ofMagnitudeBits_magnitudeBits z, hbits, hsign]
  decide

end ChartLisp.Number
