import ChartLisp.Number.Exact
import ChartLisp.Proofs.Number.Arithmetic

/-!
# Midpoints and evenly spaced numbers

Rounding keeps order, so what lies between two doubles is rounded to a double between them.

* `Nearest.le_of_le`, `Nearest.mono`   the nearest double and the order of doubles
* `Representable`                      numbers that need no rounding, such as halves and doubles
* `midpoint_between`                   the midpoint of two doubles lies between them
* `grid_mono`                          `a`, `a + step`, `a + 2 * step` and so on do not decrease
* `value_div_nonneg`                   a factor that stretches numbers is not negative
-/

namespace ChartLisp.Number

open Float.Model (UnpackedFloat)
open Float.Model.UnpackedFloat (Sign)

/-! ## Order -/

namespace Nearest

variable {x y z w : Float} {q r : ℚ}

theorem mono (hz : Nearest z q) (hw : Nearest w r) (h : q ≤ r) : z ≤ w := by
  rw [le_iff_orderKey hz.notNaN hw.notNaN, hz.key, hw.key]
  exact nearestKey_mono h

theorem self (hx : x.isFinite = true) : Nearest x (value x) :=
  ⟨isNaN_eq_false hx, (nearestKey_value hx).symm⟩

theorem le_of_le (hz : Nearest z q) (hx : x.isFinite = true) (h : value x ≤ q) : x ≤ z :=
  (self hx).mono hz h

theorem ge_of_ge (hz : Nearest z q) (hx : x.isFinite = true) (h : q ≤ value x) : z ≤ x :=
  hz.mono (self hx) h

end Nearest

theorem isFinite_iff_orderKey {z : Float} (hz : z.isNaN = false) :
    z.isFinite = true ↔ -(infinityBits : Int) < orderKey z ∧ orderKey z < infinityBits := by
  rw [orderKey_eq]
  constructor
  · intro h
    have := magnitudeBits_lt h
    split <;> omega
  · intro h
    refine isFinite_of_eq_false hz (Bool.eq_false_of_not_eq_true fun hinf => ?_)
    rw [magnitudeBits_of_isInf hinf] at h
    split at h <;> omega

theorem isFinite_of_between {x y z : Float} (hx : x.isFinite = true) (hy : y.isFinite = true)
    (hz : z.isNaN = false) (hxz : x ≤ z) (hzy : z ≤ y) : z.isFinite = true := by
  rw [le_iff_orderKey (isNaN_eq_false hx) hz] at hxz
  rw [le_iff_orderKey hz (isNaN_eq_false hy)] at hzy
  have hlo := ((isFinite_iff_orderKey (isNaN_eq_false hx)).mp hx).1
  have hhi := ((isFinite_iff_orderKey (isNaN_eq_false hy)).mp hy).2
  exact (isFinite_iff_orderKey hz).mpr ⟨hlo.trans_le hxz, hzy.trans_lt hhi⟩

/-! ## Exact results -/

/-- the number is a finite double -/
def Representable (q : ℚ) : Prop := ∃ x : Float, x.isFinite = true ∧ value x = q

theorem Nearest.exact {z : Float} {q : ℚ} (hz : Nearest z q) (hq : Representable q) :
    z.isFinite = true ∧ value z = q := by
  obtain ⟨x, hx, rfl⟩ := hq
  have hkey : orderKey z = orderKey x := hz.key.trans (nearestKey_value hx)
  exact ⟨isFinite_of_between hx hx hz.notNaN (hz.le_of_le hx le_rfl) (hz.ge_of_ge hx le_rfl),
    value_congr hkey⟩

theorem Cell.eq_of_bits {c d : Cell} (hc : c.Normalized) (hd : d.Normalized)
    (h : (c.exponent - leastExponent).toNat * 2 ^ 52 + c.mantissa =
      (d.exponent - leastExponent).toNat * 2 ^ 52 + d.mantissa) : c = d := by
  have hcompare := compare_cells hc hd
  rw [h, compare_eq_iff_eq.mpr rfl, Ordering.then_eq_eq] at hcompare
  obtain ⟨he, hm⟩ := hcompare
  obtain ⟨m, e⟩ := c
  obtain ⟨m', e'⟩ := d
  rw [compare_eq_iff_eq] at he hm
  dsimp only at he hm
  rw [he, hm]

theorem representable_cell (s : Sign) {c : Cell} (hc : c.Normalized)
    (hlt : (c.exponent - leastExponent).toNat * 2 ^ 52 + c.mantissa < infinityBits) :
    Representable (s.apply 1 * (c.mantissa * 2 ^ c.exponent)) := by
  have hbits := hasBits_finite s hc
  rw [Nat.min_eq_left hlt.le] at hbits
  have hmagnitude := hbits.magnitudeBits_eq
  refine ⟨_, (isFinite_iff_orderKey hbits.notNaN).mpr ?_, ?_⟩
  · rw [hbits.key]
    cases s <;> dsimp only [Sign.apply] <;> omega
  · rw [value_eq, hbits.signOf_eq]
    generalize packed (.finite s c.mantissa c.exponent hc.pos) = x at hmagnitude
    have hne : (Binary.ofFloat x).mantissa ≠ 0 := fun hzero => by
      have := magnitudeBits_eq_zero hzero
      have := hc.pos
      omega
    have hofFloat := magnitudeBits_ofFloat x
    rw [Nat.pow_eq] at hofFloat
    have hcell := Cell.eq_of_bits (normalized_ofFloat hne) hc (hofFloat.trans hmagnitude)
    unfold absValue
    rw [← hcell]

/-- the mantissa and exponent of a finite double other than zero -/
theorem value_cell {x : Float} (h : value x ≠ 0) : ∃ (s : Sign) (c : Cell), c.Normalized ∧
    value x = s.apply 1 * (c.mantissa * 2 ^ c.exponent) ∧
      (c.exponent - leastExponent).toNat * 2 ^ 52 + c.mantissa = magnitudeBits x := by
  have hne : (Binary.ofFloat x).mantissa ≠ 0 := fun hzero => h (value_of_zero hzero)
  exact ⟨signOf x, _, normalized_ofFloat hne, value_eq x, magnitudeBits_ofFloat x⟩

theorem representable_two_mul {x : Float} (hx : x.isFinite = true)
    (h : magnitudeBits x < 2046 * 2 ^ 52) : Representable (2 * value x) := by
  by_cases hzero : value x = 0
  · exact ⟨x, hx, by rw [hzero, mul_zero]⟩
  obtain ⟨s, ⟨m, e⟩, ⟨hpos, hlt, hleast, hfull⟩, hvalue, hbits⟩ := value_cell hzero
  dsimp only at hpos hlt hleast hfull hvalue hbits
  have hinfinity : infinityBits = 2047 * 2 ^ 52 := rfl
  rw [hvalue]
  by_cases hm : 2 ^ 52 ≤ m
  · have hr := representable_cell s (c := ⟨m, e + 1⟩)
      ⟨hpos, hlt, by dsimp only; omega, fun _ => hm⟩ (by dsimp only; omega)
    have hdouble : 2 * (s.apply 1 * (m * 2 ^ e : ℚ)) = s.apply 1 * (m * 2 ^ (e + 1)) := by
      rw [zpow_add_one₀ two_ne_zero]
      ring
    rwa [hdouble]
  · have he : e = leastExponent := by
      by_contra hne
      exact hm (hfull hne)
    have hr := representable_cell s (c := ⟨2 * m, e⟩)
      ⟨by dsimp only; omega, by dsimp only; omega, hleast, fun hne => absurd he hne⟩
      (by dsimp only; omega)
    have hdouble : 2 * (s.apply 1 * (m * 2 ^ e : ℚ)) = s.apply 1 * ((2 * m : Nat) * 2 ^ e) := by
      push_cast
      ring
    rwa [hdouble]

theorem representable_half {x : Float} (hx : x.isFinite = true) (h : 2 * 2 ^ 52 ≤ magnitudeBits x) :
    Representable (value x / 2) := by
  by_cases hzero : value x = 0
  · exact ⟨x, hx, by rw [hzero, zero_div]⟩
  have hfinite := magnitudeBits_lt hx
  obtain ⟨s, ⟨m, e⟩, ⟨hpos, hlt, hleast, hfull⟩, hvalue, hbits⟩ := value_cell hzero
  dsimp only at hpos hlt hleast hfull hvalue hbits
  have hr := representable_cell s (c := ⟨m, e - 1⟩)
    ⟨hpos, hlt, by dsimp only; omega, fun _ => hfull (by omega)⟩ (by dsimp only; omega)
  have hhalf : s.apply 1 * (m * 2 ^ e : ℚ) / 2 = s.apply 1 * (m * 2 ^ (e - 1)) := by
    rw [zpow_sub_one₀ two_ne_zero]
    ring
  rwa [hvalue, hhalf]

/-! ## Midpoints -/

theorem orderKey_abs {x : Float} (hx : x.isFinite = true) : orderKey x.abs = magnitudeBits x := by
  rw [(nearest_abs hx).key, abs_value, nearestKey_absValue hx]

theorem isFinite_abs {x : Float} (hx : x.isFinite = true) : x.abs.isFinite = true := by
  have := magnitudeBits_lt hx
  rw [isFinite_iff_orderKey (nearest_abs hx).notNaN, orderKey_abs hx]
  omega

theorem abs_le_halfLargest {x : Float} (hx : x.isFinite = true) :
    x.abs ≤ halfLargest ↔ magnitudeBits x < 2046 * 2 ^ 52 := by
  have hkey : orderKey halfLargest = 2046 * 2 ^ 52 - 1 := by decide
  rw [le_iff_orderKey (nearest_abs hx).notNaN (by decide), orderKey_abs hx, hkey]
  omega

theorem abs_lt_twiceLeastNormal {x : Float} (hx : x.isFinite = true) :
    x.abs < twiceLeastNormal ↔ magnitudeBits x < 2 * 2 ^ 52 := by
  have hkey : orderKey twiceLeastNormal = 2 * 2 ^ 52 := by decide
  rw [lt_iff_orderKey (nearest_abs hx).notNaN (by decide), orderKey_abs hx, hkey]
  omega

theorem isFinite_two : (2 : Float).isFinite = true := by decide

theorem value_two : value 2 = 2 := by
  rw [value_eq_mul (m := 2 ^ 52) (e := -51) (by decide) (by decide)
    (by decide)]
  norm_num

theorem nearest_half {x : Float} (hx : x.isFinite = true) : Nearest (x / 2) (value x / 2) := by
  have h := nearest_div hx isFinite_two (by rw [value_two]; exact two_ne_zero)
  rwa [value_two] at h

/-- a number too small to be halved exactly -/
theorem absValue_le_one {x : Float} (h : magnitudeBits x < 2 * 2 ^ 52) : absValue x ≤ 1 := by
  by_cases hzero : (Binary.ofFloat x).mantissa = 0
  · rw [absValue, hzero, Nat.cast_zero, zero_mul]
    exact zero_le_one
  obtain ⟨-, hlt, hleast, -⟩ := normalized_ofFloat hzero
  have hbits := magnitudeBits_ofFloat x
  rw [Nat.pow_eq] at hbits
  dsimp only [leastExponent] at hlt hleast hbits
  have hexp : (2 : ℚ) ^ (Binary.ofFloat x).exponent ≤ 2 ^ (-53 : Int) :=
    zpow_le_zpow_right₀ one_le_two (by omega)
  have hmantissa : ((Binary.ofFloat x).mantissa : ℚ) ≤ 2 ^ 53 := by exact_mod_cast hlt.le
  calc absValue x ≤ 2 ^ 53 * 2 ^ (-53 : Int) :=
        mul_le_mul hmantissa hexp (two_zpow_pos _).le (by norm_num)
    _ = 1 := by norm_num

/-- a number too large to be doubled -/
theorem two_le_absValue {x : Float} (h : 2046 * 2 ^ 52 ≤ magnitudeBits x) : 2 ≤ absValue x := by
  have hne : (Binary.ofFloat x).mantissa ≠ 0 := fun hzero => by
    have := magnitudeBits_eq_zero hzero
    omega
  obtain ⟨hpos, hlt, hleast, -⟩ := normalized_ofFloat hne
  have hbits := magnitudeBits_ofFloat x
  rw [Nat.pow_eq] at hbits
  dsimp only [leastExponent] at hpos hlt hleast hbits
  have hexp : (2 : ℚ) ^ (1 : Int) ≤ 2 ^ (Binary.ofFloat x).exponent :=
    zpow_le_zpow_right₀ one_le_two (by omega)
  have hmantissa : (1 : ℚ) ≤ (Binary.ofFloat x).mantissa := by exact_mod_cast hpos
  calc (2 : ℚ) = 1 * 2 ^ (1 : Int) := by norm_num
    _ ≤ absValue x := mul_le_mul hmantissa hexp (two_zpow_pos _).le (by linarith)

/-- half of a large number leads a small one towards it and not past it -/
theorem add_half_between {p q : ℚ} (hp : |p| ≤ 1) (hq : 2 ≤ |q|) (h : p ≤ q) :
    p ≤ p + q / 2 ∧ p + q / 2 ≤ q := by
  rw [abs_le] at hp
  rw [le_abs] at hq
  obtain hq | hq := hq <;> constructor <;> linarith

/-- the midpoint is a number between the two, rounded -/
theorem nearest_midpoint {a b : Float} (ha : a.isFinite = true) (hb : b.isFinite = true)
    (h : a ≤ b) : ∃ q, Nearest (midpoint a b) q ∧ value a ≤ q ∧ q ≤ value b := by
  have hle := (le_iff_value ha hb).mp h
  unfold midpoint
  simp only [abs_le_halfLargest ha, abs_le_halfLargest hb, abs_lt_twiceLeastNormal ha,
    abs_lt_twiceLeastNormal hb]
  split
  · -- the sum lies between the doubles of `a` and `b`
    rename_i hsmall
    obtain ⟨x, hx, hxa⟩ := representable_two_mul ha hsmall.1
    obtain ⟨y, hy, hyb⟩ := representable_two_mul hb hsmall.2
    have hsum := nearest_add ha hb
    have hlo := hsum.le_of_le hx (by linarith)
    have hhi := hsum.ge_of_ge hy (by linarith)
    have hfinite := isFinite_of_between hx hy hsum.notNaN hlo hhi
    have hlo' := (le_iff_value hx hfinite).mp hlo
    have hhi' := (le_iff_value hfinite hy).mp hhi
    exact ⟨_, nearest_half hfinite, by linarith, by linarith⟩
  · rename_i hlarge
    split
    · rename_i hsmall
      have hone := absValue_le_one hsmall
      have htwo : 2 ≤ absValue b := two_le_absValue (by omega)
      rw [← abs_value] at hone htwo
      obtain ⟨hfinite, hhalf⟩ := (nearest_half hb).exact (representable_half hb (by omega))
      refine ⟨_, nearest_add ha hfinite, ?_⟩
      rw [hhalf]
      exact add_half_between hone htwo hle
    · rename_i ha'
      obtain ⟨hafinite, hahalf⟩ := (nearest_half ha).exact (representable_half ha (by omega))
      split
      · rename_i hsmall
        have hone := absValue_le_one hsmall
        have htwo : 2 ≤ absValue a := two_le_absValue (by omega)
        rw [← abs_value, ← abs_neg] at hone htwo
        obtain ⟨hlo, hhi⟩ := add_half_between hone htwo (neg_le_neg hle)
        refine ⟨_, nearest_add hafinite hb, ?_, ?_⟩ <;> rw [hahalf] <;> linarith
      · obtain ⟨hbfinite, hbhalf⟩ := (nearest_half hb).exact (representable_half hb (by omega))
        refine ⟨_, nearest_add hafinite hbfinite, ?_, ?_⟩ <;> rw [hahalf, hbhalf] <;> linarith

theorem midpoint_between {a b : Float} (ha : a.isFinite = true) (hb : b.isFinite = true)
    (h : a ≤ b) : a ≤ midpoint a b ∧ midpoint a b ≤ b ∧ (midpoint a b).isFinite = true := by
  obtain ⟨q, hq, hlo, hhi⟩ := nearest_midpoint ha hb h
  have hlo := hq.le_of_le ha hlo
  have hhi := hq.ge_of_ge hb hhi
  exact ⟨hlo, hhi, isFinite_of_between ha hb hq.notNaN hlo hhi⟩

/-! ## Evenly spaced numbers -/

theorem isFinite_packed {u : UnpackedFloat} (h : u.isFinite = false) :
    (packed u).isFinite = false := by
  cases u with
  | notANumber => decide
  | infinity s => cases s <;> decide
  | zero s => cases h
  | finite s m e hm => cases h

/-- a sum with what is not finite is not finite -/
theorem isFinite_of_add {x y : Float} (h : (x + y).isFinite = true) : y.isFinite = true := by
  have hadd {u v : UnpackedFloat} (hv : v.isFinite = false) :
      (UnpackedFloat.add .binary64 u v).isFinite = false := by
    cases v with
    | notANumber => cases u <;> rfl
    | infinity t =>
      cases u with
      | infinity s =>
        simp only [UnpackedFloat.add]
        split <;> rfl
      | notANumber => rfl
      | zero s => rfl
      | finite s m e hm => rfl
    | zero t => cases hv
    | finite t m e hm => cases hv
  by_contra hy
  exact Bool.eq_false_iff.mp (isFinite_packed (hadd (Bool.eq_false_of_not_eq_true hy))) h

theorem isFinite_of_mul {x y : Float} (h : (x * y).isFinite = true) : y.isFinite = true := by
  have hmul {u v : UnpackedFloat} (hv : v.isFinite = false) :
      (UnpackedFloat.mul .binary64 u v).isFinite = false := by
    cases v with
    | notANumber => cases u <;> rfl
    | infinity t => cases u <;> rfl
    | zero t => cases hv
    | finite t m e hm => cases hv
  by_contra hy
  exact Bool.eq_false_iff.mp (isFinite_packed (hmul (Bool.eq_false_of_not_eq_true hy))) h

theorem isFinite_of_div {x y : Float} (h : (x / y).isFinite = true) : x.isFinite = true := by
  have hdiv {u v : UnpackedFloat} (hu : u.isFinite = false) :
      (UnpackedFloat.div .binary64 u v).isFinite = false := by
    cases u with
    | notANumber => cases v <;> rfl
    | infinity t => cases v <;> rfl
    | zero t => cases hu
    | finite t m e hm => cases hu
  by_contra hx
  exact Bool.eq_false_iff.mp (isFinite_packed (hdiv (Bool.eq_false_of_not_eq_true hx))) h

theorem isFinite_zero : (0 : Float).isFinite = true := by decide

theorem value_zero : value 0 = 0 := value_of_zero (by decide)

theorem value_pos_of_lt {x : Float} (hx : x.isFinite = true) (h : 0 < x) : 0 < value x := by
  rwa [lt_iff_value isFinite_zero hx, value_zero] at h

theorem value_nonneg_of_nearest {z : Float} {q : ℚ} (hz : Nearest z q) (hfinite : z.isFinite = true)
    (hq : 0 ≤ q) : 0 ≤ value z := by
  have hle := hz.le_of_le isFinite_zero (value_zero.trans_le hq)
  rwa [le_iff_value isFinite_zero hfinite, value_zero] at hle

theorem value_step_nonneg {lower upper n : Float} (hlower : lower.isFinite = true)
    (hupper : upper.isFinite = true) (hn : n.isFinite = true) (hpos : 0 < value n)
    (hle : lower ≤ upper) (hstep : ((upper - lower) / n).isFinite = true) :
    0 ≤ value ((upper - lower) / n) := by
  have hwidth := isFinite_of_div hstep
  have hbounds := (le_iff_value hlower hupper).mp hle
  have hwidth0 := value_nonneg_of_nearest (nearest_sub hupper hlower) hwidth (by linarith)
  exact value_nonneg_of_nearest (nearest_div hwidth hn hpos.ne') hstep (div_nonneg hwidth0 hpos.le)

theorem mul_le_mul_float {x y s : Float} (hx : x.isFinite = true) (hy : y.isFinite = true)
    (hs : s.isFinite = true) (hnonneg : 0 ≤ value s) (h : x ≤ y) : x * s ≤ y * s :=
  (nearest_mul hx hs).mono (nearest_mul hy hs)
    (mul_le_mul_of_nonneg_right ((le_iff_value hx hy).mp h) hnonneg)

theorem grid_mono {a step i j : Float} (ha : a.isFinite = true) (hi : i.isFinite = true)
    (hj : j.isFinite = true) (hij : i ≤ j) (hstep : 0 ≤ value step)
    (hmi : (i * step).isFinite = true) (hmj : (j * step).isFinite = true) :
    a + i * step ≤ a + j * step := by
  have hs := isFinite_of_mul hmi
  have hoffset := (le_iff_value hmi hmj).mp (mul_le_mul_float hi hj hs hstep hij)
  exact (nearest_add ha hmi).mono (nearest_add ha hmj) (by linarith)

/-! ## Factors -/

/-- what is divided by an infinity is zero -/
theorem nearest_div_infinite {x y : Float} (hx : x.isFinite = true) (hnan : y.isNaN = false)
    (hy : ¬ y.isFinite = true) : Nearest (x / y) 0 := by
  show Nearest (packed (UnpackedFloat.div .binary64 x.toModel.unpack y.toModel.unpack)) 0
  have hreads := reads_unpack hx
  have hunpacked := unpacked y
  generalize value x = q at hreads
  generalize x.toModel.unpack = u at hreads
  generalize y.toModel.unpack = v at hunpacked
  cases hunpacked with
  | nan h =>
    rw [hnan] at h
    cases h
  | infinity _ => cases hreads <;> exact nearest_zero _
  | zero h _ => exact absurd h hy
  | finite h _ => exact absurd h hy

/-- a quotient by a positive number, which may be infinite -/
theorem value_div_nonneg {x y : Float} (hx : x.isFinite = true) (hnonneg : 0 ≤ value x) (hy : 0 < y)
    (hdiv : (x / y).isFinite = true) : 0 ≤ value (x / y) := by
  by_cases hfinite : y.isFinite = true
  · have hpos := value_pos_of_lt hfinite hy
    exact value_nonneg_of_nearest (nearest_div hx hfinite hpos.ne') hdiv
      (div_nonneg hnonneg hpos.le)
  · have hnan := (notNaN_of_le (le_of_lt_float hy)).2
    exact value_nonneg_of_nearest (nearest_div_infinite hx hnan hfinite) hdiv le_rfl

end ChartLisp.Number
