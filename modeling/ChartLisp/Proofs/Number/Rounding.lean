import ChartLisp.Number.Shortest
import Mathlib.Algebra.Order.Field.Power
import Mathlib.Data.Rat.Cast.Order
import Mathlib.Tactic.FieldSimp
import Mathlib.Tactic.Linarith
import Mathlib.Tactic.NormNum

/-!
# The numbers that round to a double

A positive double `m * 2 ^ e` is the nearest one to every number of an interval around it.  The
interval is stated over the rationals; the search for a short decimal number and the rounding of a
quotient are both measured against it.

* `pow_toNat`, `twoUp_eq`, `tenUp_eq`   the two halves of a signed power
* `bitMagnitude_le`, `lt_bitMagnitude`  the power of two below a quotient
* `roundDiv_eq`                         what a quotient rounds to
* `Cell.Normalized`, `Cell.Contains`    the form of a double, and its interval
* `Cell.shortest_contains`              the decimal number that is written lies in the interval
* `nearestBits_eq`                      what lies in the interval rounds to the double
-/

namespace ChartLisp.Number

/-! ## Signed powers -/

theorem pow_toNat {b : Nat} (hb : b ≠ 0) (j : Int) :
    ((Nat.pow b j.toNat : Nat) : ℚ) = (b : ℚ) ^ j * (Nat.pow b (-j).toNat : Nat) := by
  have hb' : (b : ℚ) ≠ 0 := Nat.cast_ne_zero.mpr hb
  rw [Nat.pow_eq, Nat.pow_eq, Nat.cast_pow, Nat.cast_pow, ← zpow_natCast, ← zpow_natCast,
    ← zpow_add₀ hb']
  congr 1
  omega

theorem twoUp_eq (j : Int) : (twoUp j : ℚ) = 2 ^ j * twoDown j := pow_toNat two_ne_zero j

theorem tenUp_eq (j : Int) : (tenUp j : ℚ) = 10 ^ j * tenDown j := pow_toNat (by decide) j

theorem twoDown_pos (j : Int) : 0 < twoDown j := Nat.pow_pos (by decide)

theorem twoUp_pos (j : Int) : 0 < twoUp j := Nat.pow_pos (by decide)

theorem tenDown_pos (j : Int) : 0 < tenDown j := Nat.pow_pos (by decide)

theorem two_zpow_pos (j : Int) : (0 : ℚ) < 2 ^ j := zpow_pos two_pos j

theorem two_zpow_add (a b : Int) : (2 : ℚ) ^ (a + b) = 2 ^ a * 2 ^ b := zpow_add₀ two_ne_zero a b

theorem lt_of_two_zpow_lt {a b : Int} (h : (2 : ℚ) ^ a < 2 ^ b) : a < b :=
  (zpow_lt_zpow_iff_right₀ one_lt_two).mp h

/-! ## Quotients -/

theorem bitMagnitude_le {n d : Nat} (hn : 0 < n) (hd : 0 < d) :
    (2 : ℚ) ^ bitMagnitude n d ≤ n / d := by
  have hd' : (0 : ℚ) < d := Nat.cast_pos.mpr hd
  have hlarge : d ≤ n * Nat.pow 2 (d.log2 + 1) := by
    calc d ≤ 2 ^ (d.log2 + 1) := Nat.lt_log2_self.le
      _ ≤ n * 2 ^ (d.log2 + 1) := Nat.le_mul_of_pos_left _ hn
  have hquot : n * Nat.pow 2 (d.log2 + 1) / d ≠ 0 := (Nat.div_pos hlarge hd).ne'
  have hlog := Nat.log2_self_le hquot
  have hcast : ((2 ^ (n * Nat.pow 2 (d.log2 + 1) / d).log2 : Nat) : ℚ) * d ≤
      n * (2 ^ (d.log2 + 1) : Nat) := by
    exact_mod_cast (Nat.mul_le_mul_right d hlog).trans (Nat.div_mul_le_self _ d)
  unfold bitMagnitude
  rw [zpow_sub₀ two_ne_zero, div_le_div_iff₀ (two_zpow_pos _) hd']
  push_cast at hcast ⊢
  exact_mod_cast hcast

theorem lt_bitMagnitude {n d : Nat} (hd : 0 < d) : (n / d : ℚ) < 2 ^ (bitMagnitude n d + 1) := by
  have hd' : (0 : ℚ) < d := Nat.cast_pos.mpr hd
  have hlog : n * Nat.pow 2 (d.log2 + 1) / d < 2 ^ ((n * Nat.pow 2 (d.log2 + 1) / d).log2 + 1) :=
    Nat.lt_log2_self
  have hcast : (n : ℚ) * (2 ^ (d.log2 + 1) : Nat) <
      (2 ^ ((n * Nat.pow 2 (d.log2 + 1) / d).log2 + 1) : Nat) * d := by
    exact_mod_cast (Nat.div_lt_iff_lt_mul hd).mp hlog
  unfold bitMagnitude
  rw [sub_add_eq_add_sub, zpow_sub₀ two_ne_zero, div_lt_div_iff₀ hd' (two_zpow_pos _)]
  push_cast at hcast ⊢
  exact_mod_cast hcast

/-- `m` is at most a half away, and less than a half if it is odd -/
theorem roundDiv_eq {n d m : Nat} (hd : 0 < d) (hlo : 2 * (m * d) ≤ 2 * n + d)
    (hhi : 2 * n ≤ 2 * (m * d) + d)
    (hodd : m % 2 = 1 → 2 * (m * d) < 2 * n + d ∧ 2 * n < 2 * (m * d) + d) : roundDiv n d = m := by
  have hn : d * (n / d) + n % d = n := Nat.div_add_mod n d
  have hr : n % d < d := Nat.mod_lt n hd
  unfold roundDiv
  generalize n / d = q at hn ⊢
  generalize n % d = r at hn hr ⊢
  have hqm : q = m ∨ q + 1 = m := by
    by_contra hne
    obtain hlt | hgt : q + 2 ≤ m ∨ m + 1 ≤ q := by omega
    · have := Nat.mul_le_mul_right d hlt
      rw [Nat.add_mul, Nat.mul_comm q d] at this
      omega
    · have := Nat.mul_le_mul_right d hgt
      rw [Nat.add_mul, Nat.mul_comm q d] at this
      omega
  obtain rfl | rfl := hqm
  · rw [Nat.mul_comm q d] at hlo hhi hodd
    dsimp only
    split
    · rfl
    · split <;> omega
  · rw [Nat.add_mul, Nat.mul_comm q d] at hlo hhi hodd
    dsimp only
    split
    · omega
    · split <;> omega

/-- the same for a quotient in units of `2 ^ e`, the distances in quarters of the unit -/
theorem roundDiv_scaled {n d m : Nat} {e : Int} (hd : 0 < d)
    (hlo : (4 * m - 2 : ℚ) * 2 ^ (e - 2) ≤ n / d) (hhi : (n / d : ℚ) ≤ (4 * m + 2) * 2 ^ (e - 2))
    (hodd : m % 2 = 1 →
      (4 * m - 2 : ℚ) * 2 ^ (e - 2) < n / d ∧ (n / d : ℚ) < (4 * m + 2) * 2 ^ (e - 2)) :
    roundDiv (n * twoDown e) (d * twoUp e) = m := by
  have hd' : (0 : ℚ) < d := Nat.cast_pos.mpr hd
  have hdown : (0 : ℚ) < twoDown e := Nat.cast_pos.mpr (twoDown_pos e)
  have hquarter : (2 : ℚ) ^ e = 4 * 2 ^ (e - 2) := by
    rw [show e = 2 + (e - 2) by omega, two_zpow_add]
    norm_num
  have hup : (twoUp e : ℚ) = 4 * 2 ^ (e - 2) * twoDown e := by rw [twoUp_eq, hquarter]
  generalize (2 : ℚ) ^ (e - 2) = u at *
  rw [le_div_iff₀ hd'] at hlo
  rw [div_le_iff₀ hd'] at hhi
  rw [lt_div_iff₀ hd', div_lt_iff₀ hd'] at hodd
  have hlo' := mul_le_mul_of_nonneg_right hlo hdown.le
  have hhi' := mul_le_mul_of_nonneg_right hhi hdown.le
  refine roundDiv_eq (Nat.mul_pos hd (twoUp_pos e)) ?_ ?_ fun hm => ⟨?_, ?_⟩
  · have : (2 * (m * (d * twoUp e)) : ℚ) ≤ 2 * (n * twoDown e) + d * twoUp e := by
      rw [hup]
      linarith
    exact_mod_cast this
  · have : (2 * (n * twoDown e) : ℚ) ≤ 2 * (m * (d * twoUp e)) + d * twoUp e := by
      rw [hup]
      linarith
    exact_mod_cast this
  · have := mul_lt_mul_of_pos_right (hodd hm).1 hdown
    have : (2 * (m * (d * twoUp e)) : ℚ) < 2 * (n * twoDown e) + d * twoUp e := by
      rw [hup]
      linarith
    exact_mod_cast this
  · have := mul_lt_mul_of_pos_right (hodd hm).2 hdown
    have : (2 * (n * twoDown e) : ℚ) < 2 * (m * (d * twoUp e)) + d * twoUp e := by
      rw [hup]
      linarith
    exact_mod_cast this

/-! ## The interval of a double -/

namespace Cell

/-- the mantissa of a double is positive, fills its 53 bits unless the exponent is the least one,
and does not overflow them -/
structure Normalized (c : Cell) : Prop where
  pos : 0 < c.mantissa
  lt : c.mantissa < 2 ^ 53
  least : leastExponent ≤ c.exponent
  full : c.exponent ≠ leastExponent → 2 ^ 52 ≤ c.mantissa

/-- `q` lies in the interval of the double, whose ends belong to it if the mantissa is even -/
structure Contains (c : Cell) (q : ℚ) : Prop where
  lower_le : (c.lower : ℚ) * 2 ^ (c.exponent - 2) ≤ q
  le_upper : q ≤ c.upper * 2 ^ (c.exponent - 2)
  of_odd : c.mantissa % 2 = 1 →
    (c.lower : ℚ) * 2 ^ (c.exponent - 2) < q ∧ q < c.upper * 2 ^ (c.exponent - 2)

variable {c : Cell}

theorem lower_lt_centre (hc : 0 < c.mantissa) : c.lower < c.centre := by
  unfold lower centre
  split <;> omega

theorem centre_lt_upper (c : Cell) : c.centre < c.upper := by
  unfold upper centre
  omega

theorem le_lower (c : Cell) : 4 * c.mantissa - 2 ≤ c.lower := by
  unfold lower
  split <;> omega

theorem four_mul_sub_le (c : Cell) :
    (4 * c.mantissa - 2 : ℚ) * 2 ^ (c.exponent - 2) ≤ c.lower * 2 ^ (c.exponent - 2) := by
  have hlower : 4 * c.mantissa ≤ c.lower + 2 := by
    have := c.le_lower
    omega
  have hcast : (4 * c.mantissa : ℚ) ≤ c.lower + 2 := by exact_mod_cast hlower
  exact mul_le_mul_of_nonneg_right (by linarith) (two_zpow_pos _).le

theorem contains_centre (hc : 0 < c.mantissa) : c.Contains (c.centre * 2 ^ (c.exponent - 2)) := by
  have hu := two_zpow_pos (c.exponent - 2)
  have hlo : (c.lower : ℚ) * 2 ^ (c.exponent - 2) < c.centre * 2 ^ (c.exponent - 2) :=
    mul_lt_mul_of_pos_right (Nat.cast_lt.mpr (lower_lt_centre hc)) hu
  have hhi : (c.centre : ℚ) * 2 ^ (c.exponent - 2) < c.upper * 2 ^ (c.exponent - 2) :=
    mul_lt_mul_of_pos_right (Nat.cast_lt.mpr c.centre_lt_upper) hu
  exact ⟨hlo.le, hhi.le, fun _ => ⟨hlo, hhi⟩⟩

/-! ## The search stays in the interval -/

/-- both scaled measures carry the same factor -/
theorem exists_scale (c : Cell) (j : Int) :
    ∃ w : ℚ, 0 < w ∧ (c.unit j : ℚ) = 10 ^ j * w ∧ (c.quarter j : ℚ) = 2 ^ (c.exponent - 2) * w := by
  refine ⟨tenDown j * twoDown (c.exponent - 2), ?_, ?_, ?_⟩
  · exact mul_pos (Nat.cast_pos.mpr (tenDown_pos j)) (Nat.cast_pos.mpr (twoDown_pos _))
  · rw [unit, Nat.cast_mul, tenUp_eq, mul_assoc]
  · rw [quarter, Nat.cast_mul, twoUp_eq, mul_left_comm]

theorem holds_iff (j : Int) (k : Nat) : c.holds j k = true ↔ c.Contains (k * 10 ^ j) := by
  obtain ⟨w, hw, hunit, hquarter⟩ := c.exists_scale j
  have hle (a b : Nat) (x y : ℚ) (ha : (a : ℚ) = x * w) (hb : (b : ℚ) = y * w) :
      (a ≤ b ↔ x ≤ y) ∧ (a < b ↔ x < y) := by
    have hcast : ((a : ℚ) ≤ b ↔ a ≤ b) ∧ ((a : ℚ) < b ↔ a < b) := ⟨Nat.cast_le, Nat.cast_lt⟩
    rw [← hcast.1, ← hcast.2, ha, hb]
    exact ⟨mul_le_mul_iff_left₀ hw, mul_lt_mul_iff_left₀ hw⟩
  have hpoint : ((k * c.unit j : Nat) : ℚ) = k * 10 ^ j * w := by
    rw [Nat.cast_mul, hunit, mul_assoc]
  have hend (a : Nat) : ((a * c.quarter j : Nat) : ℚ) = a * 2 ^ (c.exponent - 2) * w := by
    rw [Nat.cast_mul, hquarter, mul_assoc]
  obtain ⟨hlo, hlo'⟩ := hle _ _ _ _ (hend c.lower) hpoint
  obtain ⟨hhi, hhi'⟩ := hle _ _ _ _ hpoint (hend c.upper)
  unfold holds
  dsimp only
  split
  · rename_i heven
    rw [Bool.and_eq_true, decide_eq_true_iff, decide_eq_true_iff, hlo, hhi]
    exact ⟨fun h => ⟨h.1, h.2, fun hodd => by omega⟩, fun h => ⟨h.1, h.2⟩⟩
  · rename_i hodd
    rw [Bool.and_eq_true, decide_eq_true_iff, decide_eq_true_iff, hlo', hhi']
    exact ⟨fun h => ⟨h.1.le, h.2.le, fun _ => h⟩, fun h => h.of_odd (by omega)⟩

/-- on a grid as fine as the double's own the point below is the double -/
theorem below_exact {j : Int} (hj : j ≤ min c.exponent 0) :
    c.below j * c.unit j = c.centre * c.quarter j := by
  have hdvd : c.unit j ∣ c.centre * c.quarter j := by
    have hup : tenUp j = 1 := by
      unfold tenUp
      rw [show j.toNat = 0 by omega, Nat.pow_eq, Nat.pow_zero]
    have hfour : Nat.pow 2 (2 - c.exponent).toNat ∣ 4 * Nat.pow 10 (-j).toNat := by
      have h : 4 * 10 ^ (-j).toNat = 2 ^ (2 + (-j).toNat) * 5 ^ (-j).toNat := by
        rw [Nat.pow_add, Nat.mul_assoc, ← Nat.mul_pow]
      rw [Nat.pow_eq, Nat.pow_eq, h]
      exact Dvd.dvd.mul_right (Nat.pow_dvd_pow 2 (by omega)) _
    rw [unit, quarter, centre, hup, one_mul, twoDown, tenDown,
      show -(c.exponent - 2) = 2 - c.exponent by omega]
    calc Nat.pow 2 (2 - c.exponent).toNat
        ∣ 4 * Nat.pow 10 (-j).toNat := hfour
      _ ∣ 4 * Nat.pow 10 (-j).toNat * (c.mantissa * twoUp (c.exponent - 2)) := Nat.dvd_mul_right _ _
      _ = 4 * c.mantissa * (Nat.pow 10 (-j).toNat * twoUp (c.exponent - 2)) :=
        Nat.mul_mul_mul_comm _ _ _ _
  exact Nat.div_mul_cancel hdvd

theorem contains_below {j : Int} (hc : 0 < c.mantissa) (hj : j ≤ min c.exponent 0) :
    c.Contains (c.below j * 10 ^ j) := by
  obtain ⟨w, hw, hunit, hquarter⟩ := c.exists_scale j
  have hexact : (c.below j : ℚ) * c.unit j = c.centre * c.quarter j := by
    exact_mod_cast below_exact hj
  rw [hunit, hquarter, ← mul_assoc, ← mul_assoc] at hexact
  rw [mul_right_cancel₀ hw.ne' hexact]
  exact contains_centre hc

theorem search_contains (hc : 0 < c.mantissa) (steps : Nat) (j : Int)
    (hj : j - steps ≤ min c.exponent 0) :
    c.Contains ((c.search steps j).digits * 10 ^ (c.search steps j).exponent) := by
  induction steps generalizing j with
  | zero => exact contains_below hc (by simpa using hj)
  | succ steps ih =>
    rw [search]
    split
    · rename_i hk hk'
      split
      · exact (holds_iff j _).mp hk
      · exact (holds_iff j _).mp hk'
    · rename_i hk _
      exact (holds_iff j _).mp hk
    · rename_i hk'
      exact (holds_iff j _).mp hk'
    · exact ih (j - 1) (by push_cast at hj; omega)

theorem shortest_contains (hc : 0 < c.mantissa) :
    c.Contains (c.shortest.digits * 10 ^ c.shortest.exponent) :=
  search_contains hc _ _ (by omega)

end Cell

/-! ## What lies in the interval rounds to the double -/

namespace Cell.Contains

variable {c : Cell} {q : ℚ}

theorem pos (h : c.Contains q) (hc : 0 < c.mantissa) : 0 < q := by
  have hm : (1 : ℚ) ≤ c.mantissa := by exact_mod_cast hc
  have hpos : 0 < (4 * c.mantissa - 2 : ℚ) * 2 ^ (c.exponent - 2) :=
    mul_pos (by linarith) (two_zpow_pos _)
  exact hpos.trans_le (c.four_mul_sub_le.trans h.lower_le)

theorem lt_two_zpow (h : c.Contains q) (hc : c.mantissa < 2 ^ 53) : q < 2 ^ (c.exponent + 53) := by
  have hupper : c.upper < 2 ^ 55 := by
    unfold upper
    omega
  have hcast : (c.upper : ℚ) < 2 ^ (55 : Int) := by exact_mod_cast hupper
  calc q ≤ c.upper * 2 ^ (c.exponent - 2) := h.le_upper
    _ < 2 ^ (55 : Int) * 2 ^ (c.exponent - 2) := mul_lt_mul_of_pos_right hcast (two_zpow_pos _)
    _ = 2 ^ (c.exponent + 53) := by
      rw [← two_zpow_add]
      congr 1
      omega

/-- only the lowest mantissa of an exponent has numbers of a lower exponent in its interval -/
theorem eq_of_lt (h : c.Contains q) (hc : 2 ^ 52 ≤ c.mantissa)
    (hq : q < 2 ^ (c.exponent + 52)) : c.mantissa = 2 ^ 52 := by
  by_contra hne
  have hm : 2 ^ 52 + 1 ≤ c.mantissa := by omega
  have hcast : (2 ^ 52 + 1 : ℚ) ≤ c.mantissa := by exact_mod_cast hm
  have hle : (2 : ℚ) ^ (c.exponent + 52) ≤ q := by
    calc (2 : ℚ) ^ (c.exponent + 52) = 2 ^ (54 : Int) * 2 ^ (c.exponent - 2) := by
          rw [← two_zpow_add]
          congr 1
          omega
      _ ≤ (4 * c.mantissa - 2) * 2 ^ (c.exponent - 2) :=
        mul_le_mul_of_nonneg_right (by norm_num; linarith) (two_zpow_pos _).le
      _ ≤ q := c.four_mul_sub_le.trans h.lower_le
  exact absurd hq (not_lt.mpr hle)

/-- and those are within a quarter of the place above, which is half of the place below -/
theorem le_of_eq (h : c.Contains q) (hm : c.mantissa = 2 ^ 52) (he : c.exponent ≠ leastExponent) :
    ((2 : ℚ) ^ 54 - 1) * 2 ^ (c.exponent - 2) ≤ q := by
  have hlower : (c.lower : ℚ) = 2 ^ 54 - 1 := by
    unfold lower
    rw [if_pos ⟨hm, he⟩, hm]
    norm_num
  rw [← hlower]
  exact h.lower_le

end Cell.Contains

/-- The exponent that a number of the interval is rounded with: that of the double or, below the
lowest mantissa, the one before. -/
theorem exponent_of_contains {c : Cell} (hc : c.Normalized) {n d : Nat} (hn : 0 < n) (hd : 0 < d)
    (h : c.Contains (n / d)) :
    max leastExponent (bitMagnitude n d - 52) = c.exponent ∨
      c.mantissa = 2 ^ 52 ∧ c.exponent ≠ leastExponent ∧ (n / d : ℚ) < 2 ^ (c.exponent + 52) ∧
        max leastExponent (bitMagnitude n d - 52) = c.exponent - 1 := by
  have hmag := bitMagnitude_le hn hd
  have hmag' := lt_bitMagnitude (n := n) hd
  have hleast := hc.least
  have hlt : bitMagnitude n d < c.exponent + 53 :=
    lt_of_two_zpow_lt (hmag.trans_lt (h.lt_two_zpow hc.lt))
  by_cases hsub : c.exponent = leastExponent
  · left
    omega
  by_cases hq : (n / d : ℚ) < 2 ^ (c.exponent + 52)
  · right
    have hm := h.eq_of_lt (hc.full hsub) hq
    have hge : (2 : ℚ) ^ (c.exponent + 51) ≤ n / d := by
      calc (2 : ℚ) ^ (c.exponent + 51) = 2 ^ (53 : Int) * 2 ^ (c.exponent - 2) := by
            rw [← two_zpow_add]
            congr 1
            omega
        _ ≤ (2 ^ 54 - 1) * 2 ^ (c.exponent - 2) :=
          mul_le_mul_of_nonneg_right (by norm_num) (two_zpow_pos _).le
        _ ≤ n / d := h.le_of_eq hm hsub
    have hlow : c.exponent + 51 < bitMagnitude n d + 1 := lt_of_two_zpow_lt (hge.trans_lt hmag')
    have hhigh : bitMagnitude n d < c.exponent + 52 := lt_of_two_zpow_lt (hmag.trans_lt hq)
    exact ⟨hm, hsub, hq, by omega⟩
  · left
    have hlow : c.exponent + 52 < bitMagnitude n d + 1 :=
      lt_of_two_zpow_lt ((not_lt.mp hq).trans_lt hmag')
    omega

theorem nearestBits_eq {c : Cell} (hc : c.Normalized) {n d : Nat} (hd : 0 < d)
    (h : c.Contains (n / d)) :
    nearestBits n d =
      min ((c.exponent - leastExponent).toNat * Nat.pow 2 52 + c.mantissa) infinityBits := by
  have hn : 0 < n := by
    refine Nat.pos_of_ne_zero fun hzero => ?_
    have := h.pos hc.pos
    rw [hzero, Nat.cast_zero, zero_div] at this
    exact lt_irrefl _ this
  unfold nearestBits
  rw [if_neg hn.ne']
  dsimp only
  obtain he | ⟨hm, he, hq, hexp⟩ := exponent_of_contains hc hn hd h
  · have hround : roundDiv (n * twoDown c.exponent) (d * twoUp c.exponent) = c.mantissa := by
      have hlo := c.four_mul_sub_le
      have hhi := h.le_upper
      have hodd := h.of_odd
      rw [show (c.upper : ℚ) = 4 * c.mantissa + 2 by unfold Cell.upper; push_cast; rfl] at hhi hodd
      exact roundDiv_scaled hd (hlo.trans h.lower_le) hhi fun hm =>
        ⟨hlo.trans_lt (hodd hm).1, (hodd hm).2⟩
    rw [he, hround]
  · -- the mantissa is rounded up to `2 ^ 53`, which carries
    have hround :
        roundDiv (n * twoDown (c.exponent - 1)) (d * twoUp (c.exponent - 1)) = 2 ^ 53 := by
      have hlo := h.le_of_eq hm he
      have hhalf : (2 : ℚ) ^ (c.exponent - 2) = 2 * 2 ^ (c.exponent - 1 - 2) := by
        rw [show c.exponent - 2 = 1 + (c.exponent - 1 - 2) by omega, two_zpow_add, zpow_one]
      have hplace : (2 : ℚ) ^ (c.exponent + 52) = 2 ^ 55 * 2 ^ (c.exponent - 1 - 2) := by
        rw [show c.exponent + 52 = 55 + (c.exponent - 1 - 2) by omega, two_zpow_add]
        rfl
      rw [hhalf] at hlo
      rw [hplace] at hq
      have hu := two_zpow_pos (c.exponent - 1 - 2)
      refine roundDiv_scaled hd ?_ ?_ fun hodd => absurd hodd (by decide)
      · push_cast
        linarith
      · push_cast
        linarith
    rw [hexp, hround, hm]
    have hleast := hc.least
    norm_num
    omega

end ChartLisp.Number
