import ChartLisp.Proofs.Number.Bits
import ChartLisp.Proofs.Number.Nearest

/-!
# The value of a double

* `value`                    the rational number that a finite double is
* `nearestKey_value`         the double nearest to it is the double itself
* `Unpacked`, `unpacked`     sign, mantissa and exponent as the operations on doubles see them
* `compare_unpack`           doubles are compared as their places are
* `le_iff_value`             finite doubles are ordered as their values are
-/

namespace ChartLisp.Number

open Float.Model (UnpackedFloat Format)
open Float.Model.UnpackedFloat (Sign)

/-! ## Value and place -/

/-- the value of a finite double without its sign -/
def absValue (x : Float) : ℚ := (Binary.ofFloat x).mantissa * 2 ^ (Binary.ofFloat x).exponent

/-- the value of a finite double -/
def value (x : Float) : ℚ := if signBit x then -absValue x else absValue x

theorem orderKey_eq (x : Float) :
    orderKey x = if signBit x then -(magnitudeBits x : Int) else magnitudeBits x := rfl

theorem absValue_nonneg (x : Float) : 0 ≤ absValue x :=
  mul_nonneg (Nat.cast_nonneg _) (two_zpow_pos _).le

theorem value_pos {x : Float} (hsign : signBit x = false)
    (hm : (Binary.ofFloat x).mantissa ≠ 0) : 0 < value x := by
  unfold value
  rw [hsign]
  exact mul_pos (Nat.cast_pos.mpr (Nat.pos_of_ne_zero hm)) (two_zpow_pos _)

theorem value_eq_mul {x : Float} {m : Nat} {e : Int} (hsign : signBit x = false)
    (hm : (Binary.ofFloat x).mantissa = m) (he : (Binary.ofFloat x).exponent = e) :
    value x = m * 2 ^ e := by
  unfold value absValue
  rw [hsign, hm, he]
  rfl

theorem abs_value (x : Float) : |value x| = absValue x := by
  unfold value
  split
  · rw [abs_neg, abs_of_nonneg (absValue_nonneg x)]
  · rw [abs_of_nonneg (absValue_nonneg x)]

/-- the bits of a mantissa and an exponent are those of the double nearest to their value -/
theorem nearestKey_cell {c : Cell} (hc : c.Normalized) :
    nearestKey (c.mantissa * 2 ^ c.exponent) =
      (min ((c.exponent - leastExponent).toNat * 2 ^ 52 + c.mantissa) infinityBits : Nat) := by
  have hdown : (twoDown c.exponent : ℚ) ≠ 0 := Nat.cast_ne_zero.mpr (twoDown_pos _).ne'
  have hdiv : (c.mantissa * 2 ^ c.exponent : ℚ) =
      (c.mantissa * twoUp c.exponent : Nat) / (twoDown c.exponent : Nat) := by
    rw [Nat.cast_mul, twoUp_eq, ← mul_assoc, mul_div_assoc, div_self hdown, mul_one]
  have hcentre : (c.centre : ℚ) * 2 ^ (c.exponent - 2) = c.mantissa * 2 ^ c.exponent := by
    have hquarter : (2 : ℚ) ^ c.exponent = 4 * 2 ^ (c.exponent - 2) := by
      rw [zpow_sub₀ two_ne_zero]
      ring
    unfold Cell.centre
    rw [hquarter]
    push_cast
    ring
  have hcontains := Cell.contains_centre hc.pos
  rw [hcentre, hdiv] at hcontains
  rw [hdiv, nearestKey_div (twoDown_pos _), nearestBits_eq hc (twoDown_pos _) hcontains, Nat.pow_eq]

theorem nearestKey_absValue {x : Float} (h : x.isFinite = true) :
    nearestKey (absValue x) = magnitudeBits x := by
  unfold absValue
  by_cases hzero : (Binary.ofFloat x).mantissa = 0
  · rw [hzero, Nat.cast_zero, zero_mul, nearestKey_zero, magnitudeBits_eq_zero hzero, Nat.cast_zero]
  · have hbits := magnitudeBits_ofFloat x
    rw [Nat.pow_eq] at hbits
    rw [nearestKey_cell (normalized_ofFloat hzero), hbits, min_eq_left (magnitudeBits_lt h).le]

theorem nearestKey_value {x : Float} (h : x.isFinite = true) :
    nearestKey (value x) = orderKey x := by
  rw [orderKey_eq, value]
  split
  · rw [nearestKey_neg, nearestKey_absValue h]
  · rw [nearestKey_absValue h]

theorem absValue_congr {x y : Float} (h : magnitudeBits x = magnitudeBits y) :
    absValue x = absValue y := by
  have hmod : x.toBits.toNat % 2 ^ 63 = y.toBits.toNat % 2 ^ 63 := h
  have hfield : x.toBits.toNat / 2 ^ 52 % 2 ^ 11 = y.toBits.toNat / 2 ^ 52 % 2 ^ 11 := by omega
  have hfraction : x.toBits.toNat % 2 ^ 52 = y.toBits.toNat % 2 ^ 52 := by omega
  unfold absValue Binary.ofFloat
  simp only [Nat.pow_eq, hfield, hfraction]
  split <;> rfl

theorem value_congr {x y : Float} (h : orderKey x = orderKey y) : value x = value y := by
  rw [orderKey_eq, orderKey_eq] at h
  have hbits : magnitudeBits x = magnitudeBits y := by
    split at h <;> split at h <;> omega
  have habs := absValue_congr hbits
  unfold value
  by_cases hzero : magnitudeBits x = 0
  · have hx : absValue x = 0 := by
      have hmantissa : (Binary.ofFloat x).mantissa = 0 := by
        by_contra hne
        have := normalized_ofFloat hne
        have := magnitudeBits_ofFloat x
        have hpos := (normalized_ofFloat hne).pos
        dsimp only at hpos
        omega
      unfold absValue
      rw [hmantissa, Nat.cast_zero, zero_mul]
    rw [← habs, hx, neg_zero, ite_self, ite_self]
  · have hsign : signBit x = signBit y := by
      cases hsx : signBit x <;> cases hsy : signBit y <;> rw [hsx, hsy] at h <;>
        simp only [if_true, if_false, Bool.false_eq_true] at h <;> omega
    rw [hsign, habs]

/-- finite doubles have their values in the order of their places -/
theorem value_le_iff {x y : Float} (hx : x.isFinite = true) (hy : y.isFinite = true) :
    value x ≤ value y ↔ orderKey x ≤ orderKey y := by
  constructor
  · intro h
    rw [← nearestKey_value hx, ← nearestKey_value hy]
    exact nearestKey_mono h
  · intro h
    by_contra hlt
    have hle := nearestKey_mono (not_le.mp hlt).le
    rw [nearestKey_value hx, nearestKey_value hy] at hle
    exact hlt (value_congr (le_antisymm h hle)).le

/-! ## Unpacked doubles -/

def signOf (x : Float) : Sign := if signBit x then .negative else .positive

/-- what the operations see of a double -/
inductive Unpacked (x : Float) : UnpackedFloat → Prop where
  | nan (h : x.isNaN = true) : Unpacked x .notANumber
  | infinity (h : x.isInf = true) : Unpacked x (.infinity (signOf x))
  | zero (h : x.isFinite = true) (hm : (Binary.ofFloat x).mantissa = 0) :
      Unpacked x (.zero (signOf x))
  | finite (h : x.isFinite = true) (hm : 0 < (Binary.ofFloat x).mantissa) :
      Unpacked x (.finite (signOf x) (Binary.ofFloat x).mantissa (Binary.ofFloat x).exponent hm)

theorem toNat_unpackExponent (b : BitVec 64) :
    (@UnpackedFloat.unpackExponent Format.binary64 b).toNat = b.toNat / 2 ^ 52 % 2 ^ 11 := by
  simp [UnpackedFloat.unpackExponent, BitVec.extractLsb, BitVec.extractLsb',
    Nat.shiftRight_eq_div_pow]

theorem toNat_unpackMantissa (b : BitVec 64) :
    (@UnpackedFloat.unpackMantissa Format.binary64 b).toNat = b.toNat % 2 ^ 52 := by
  simp [UnpackedFloat.unpackMantissa, BitVec.extractLsb, BitVec.extractLsb']

theorem toNat_unpackSign (b : BitVec 64) :
    (@UnpackedFloat.unpackSign Format.binary64 b).toNat = b.toNat / 2 ^ 63 := by
  have := b.isLt
  simp [UnpackedFloat.unpackSign, BitVec.extractLsb, BitVec.extractLsb',
    Nat.shiftRight_eq_div_pow]
  omega

theorem ofBitVec_unpackSign (x : Float) :
    Sign.ofBitVec (@UnpackedFloat.unpackSign Format.binary64 x.toBits.toBitVec) = signOf x := by
  unfold Sign.ofBitVec signOf
  have hsign := signBit_iff x
  have hlt : x.toBits.toNat < 2 ^ 64 := x.toBits.toNat_lt
  have hbit := toNat_unpackSign x.toBits.toBitVec
  rw [UInt64.toNat_toBitVec] at hbit
  by_cases h : signBit x = true
  · have := hsign.mp h
    rw [if_pos h, if_neg]
    intro hzero
    rw [hzero] at hbit
    simp at hbit
    omega
  · have := mt hsign.mpr h
    rw [if_neg h, if_pos]
    apply BitVec.eq_of_toNat_eq
    rw [hbit]
    simp
    omega

theorem Unpacked.of_eq {x : Float} {m : Nat} {e : Int} (h : x.isFinite = true)
    (hm : (Binary.ofFloat x).mantissa = m) (he : (Binary.ofFloat x).exponent = e) (hpos : 0 < m) :
    Unpacked x (.finite (signOf x) m e hpos) := by
  subst hm he
  exact .finite h hpos

theorem ofFloat_subnormal {x : Float} (h : x.toBits.toNat / 2 ^ 52 % 2 ^ 11 = 0) :
    Binary.ofFloat x = ⟨signBit x, x.toBits.toNat % 2 ^ 52, leastExponent⟩ := if_pos h

theorem ofFloat_normal {x : Float} (h : x.toBits.toNat / 2 ^ 52 % 2 ^ 11 ≠ 0) :
    Binary.ofFloat x = ⟨signBit x, 2 ^ 52 + x.toBits.toNat % 2 ^ 52,
      (x.toBits.toNat / 2 ^ 52 % 2 ^ 11 : Nat) - 1 + leastExponent⟩ := if_neg h

theorem unpacked (x : Float) : Unpacked x x.toModel.unpack := by
  obtain ⟨hfinite, hinf, hnan⟩ := kind_iff x
  have hexp := exponentField_iff x.toBits.toBitVec
  have hfrac := fractionField_iff x.toBits.toBitVec
  rw [UInt64.toNat_toBitVec] at hexp hfrac
  show Unpacked x (UnpackedFloat.unpack Format.binary64 x.toBits.toBitVec)
  unfold UnpackedFloat.unpack
  dsimp only
  rw [ofBitVec_unpackSign]
  split
  · rename_i he
    split
    · rename_i hm
      exact .infinity (hinf.mpr ⟨hexp.mp he, hfrac.mp hm⟩)
    · rename_i hm
      exact .nan (hnan.mpr ⟨hexp.mp he, fun h => hm (hfrac.mpr h)⟩)
  · rename_i he
    have hf := hfinite.mpr fun h => he (hexp.mpr h)
    have hexpNat := toNat_unpackExponent x.toBits.toBitVec
    have hfracNat := toNat_unpackMantissa x.toBits.toBitVec
    rw [UInt64.toNat_toBitVec] at hexpNat hfracNat
    have hzero : @UnpackedFloat.unpackExponent Format.binary64 x.toBits.toBitVec = 0#11 ↔
        x.toBits.toNat / 2 ^ 52 % 2 ^ 11 = 0 := by
      rw [← BitVec.toNat_inj, hexpNat]
      rfl
    split
    · rename_i hz
      have hsub := ofFloat_subnormal (hzero.mp hz)
      split
      · rename_i hm
        refine .zero hf ?_
        rw [hsub]
        exact hfrac.mp hm
      · refine .of_eq hf ?_ ?_ _
        · rw [hsub, hfracNat]
        · rw [hsub, hexpNat, hzero.mp hz]
          rfl
    · rename_i hz
      have hnormal := ofFloat_normal (mt hzero.mpr hz)
      refine .of_eq hf ?_ ?_ _
      · have hlt : x.toBits.toNat % 2 ^ 52 < 2 ^ 52 := Nat.mod_lt _ (by decide)
        rw [hnormal, BitVec.toNat_append, hfracNat, ← Nat.shiftLeft_add_eq_or_of_lt hlt]
        rfl
      · have hbias : Format.binary64.exponentBias = 1023 := rfl
        rw [hnormal, hexpNat, hbias]
        dsimp only [leastExponent]
        omega

/-! ## Order -/

theorem magnitudeBits_pos {x : Float} (h : 0 < (Binary.ofFloat x).mantissa) :
    0 < magnitudeBits x := by
  have := magnitudeBits_ofFloat x
  omega

/-- mantissas and exponents of doubles are compared as their bits are -/
theorem compare_cells {c d : Cell} (hc : c.Normalized) (hd : d.Normalized) :
    (compare c.exponent d.exponent).then (compare c.mantissa d.mantissa) =
      compare ((c.exponent - leastExponent).toNat * 2 ^ 52 + c.mantissa)
        ((d.exponent - leastExponent).toNat * 2 ^ 52 + d.mantissa) := by
  obtain ⟨-, hclt, hcleast, hcfull⟩ := hc
  obtain ⟨-, hdlt, hdleast, hdfull⟩ := hd
  obtain hlt | heq | hgt := lt_trichotomy c.exponent d.exponent
  · have := hdfull (by omega)
    rw [compare_lt_iff_lt.mpr hlt]
    refine (compare_lt_iff_lt.mpr ?_).symm
    omega
  · rw [heq, compare_eq_iff_eq.mpr rfl, Ordering.eq_then]
    simp only [Nat.compare_eq_ite_lt, Nat.add_lt_add_iff_left]
  · have := hcfull (by omega)
    rw [compare_gt_iff_gt.mpr hgt]
    refine (compare_gt_iff_gt.mpr ?_).symm
    omega

theorem compare_finite {x y : Float} (hx : 0 < (Binary.ofFloat x).mantissa)
    (hy : 0 < (Binary.ofFloat y).mantissa) :
    (compare (Binary.ofFloat x).exponent (Binary.ofFloat y).exponent).then
      (compare (Binary.ofFloat x).mantissa (Binary.ofFloat y).mantissa) =
        compare (magnitudeBits x : Int) (magnitudeBits y) := by
  have hcells := compare_cells (normalized_ofFloat hx.ne') (normalized_ofFloat hy.ne')
  have hbitsx := magnitudeBits_ofFloat x
  have hbitsy := magnitudeBits_ofFloat y
  rw [Nat.pow_eq] at hbitsx hbitsy
  rw [hcells, hbitsx, hbitsy]
  simp only [Int.compare_eq_ite_lt, Nat.compare_eq_ite_lt, Int.ofNat_lt]

theorem compare_neg_neg (a b : Int) : compare (-a) (-b) = (compare a b).swap := by
  rw [Int.compare_swap]
  simp only [Int.compare_eq_ite_lt, neg_lt_neg_iff]

theorem lt_eq_compare {a b : Int} : Ordering.lt = compare a b ↔ a < b := by
  rw [eq_comm, compare_lt_iff_lt]

theorem gt_eq_compare {a b : Int} : Ordering.gt = compare a b ↔ b < a := by
  rw [eq_comm, compare_gt_iff_gt]

/-- doubles other than NaN are compared as their places are -/
theorem compare_unpack {x y : Float} (hx : x.isNaN = false) (hy : y.isNaN = false) :
    x.toModel.unpack.compare y.toModel.unpack = some (compare (orderKey x) (orderKey y)) := by
  have hinfinity : 0 < infinityBits := by decide
  have hux := unpacked x
  have huy := unpacked y
  rw [orderKey_eq, orderKey_eq]
  generalize x.toModel.unpack = u at hux
  generalize y.toModel.unpack = v at huy
  cases hux with
  | nan h => rw [hx] at h; cases h
  | infinity hxinf =>
    have hxbits := magnitudeBits_of_isInf hxinf
    cases huy with
    | nan h => rw [hy] at h; cases h
    | infinity hyinf =>
      have hybits := magnitudeBits_of_isInf hyinf
      cases hsx : signBit x <;> cases hsy : signBit y <;>
        simp [signOf, hsx, hsy, UnpackedFloat.compare, hxbits, hybits] <;> decide
    | zero _ hmy =>
      have hybits := magnitudeBits_eq_zero hmy
      cases hsx : signBit x <;>
        simp [signOf, hsx, UnpackedFloat.compare, hxbits, hybits, lt_eq_compare, gt_eq_compare] <;>
        omega
    | finite hyfin _ =>
      have hylt := magnitudeBits_lt hyfin
      cases hsx : signBit x <;> cases hsy : signBit y <;>
        simp [signOf, hsx, hsy, UnpackedFloat.compare, hxbits, lt_eq_compare, gt_eq_compare] <;>
        omega
  | zero _ hmx =>
    have hxbits := magnitudeBits_eq_zero hmx
    cases huy with
    | nan h => rw [hy] at h; cases h
    | infinity hyinf =>
      have hybits := magnitudeBits_of_isInf hyinf
      cases hsy : signBit y <;>
        simp [signOf, hsy, UnpackedFloat.compare, hxbits, hybits, lt_eq_compare, gt_eq_compare] <;>
        omega
    | zero _ hmy =>
      have hybits := magnitudeBits_eq_zero hmy
      simp [UnpackedFloat.compare, hxbits, hybits]
    | finite _ hmy =>
      have hypos := magnitudeBits_pos hmy
      cases hsy : signBit y <;>
        simp [signOf, hsy, UnpackedFloat.compare, hxbits, lt_eq_compare, gt_eq_compare] <;> omega
  | finite hxfin hmx =>
    have hxlt := magnitudeBits_lt hxfin
    have hxpos := magnitudeBits_pos hmx
    cases huy with
    | nan h => rw [hy] at h; cases h
    | infinity hyinf =>
      have hybits := magnitudeBits_of_isInf hyinf
      cases hsx : signBit x <;> cases hsy : signBit y <;>
        simp [signOf, hsx, hsy, UnpackedFloat.compare, hybits, lt_eq_compare, gt_eq_compare] <;>
        omega
    | zero _ hmy =>
      have hybits := magnitudeBits_eq_zero hmy
      cases hsx : signBit x <;>
        simp [signOf, hsx, UnpackedFloat.compare, hybits, lt_eq_compare, gt_eq_compare] <;> omega
    | finite _ hmy =>
      have hypos := magnitudeBits_pos hmy
      have hcompare := compare_finite hmx hmy
      cases hsx : signBit x <;> cases hsy : signBit y <;>
        simp [signOf, hsx, hsy, UnpackedFloat.compare, hcompare, compare_neg_neg, lt_eq_compare,
          gt_eq_compare] <;> omega

theorem le_iff_orderKey {x y : Float} (hx : x.isNaN = false) (hy : y.isNaN = false) :
    x ≤ y ↔ orderKey x ≤ orderKey y := by
  show decide (x.toModel.unpack.le y.toModel.unpack = true) = true ↔ _
  rw [decide_eq_true_eq, UnpackedFloat.le, compare_unpack hx hy, Option.any_some, Int.isLE_compare]

/-- NaN is neither below nor above anything -/
theorem notNaN_of_le {x y : Float} (h : x ≤ y) : x.isNaN = false ∧ y.isNaN = false := by
  have hle {u v : UnpackedFloat} (huv : (u.compare v).any (·.isLE) = true) :
      u.isNaN = false ∧ v.isNaN = false := by
    constructor
    · cases u with
      | notANumber => cases huv
      | _ => rfl
    · cases v with
      | notANumber => cases u <;> cases huv
      | _ => rfl
  exact hle (of_decide_eq_true h)

theorem float_le_trans {x y z : Float} (hxy : x ≤ y) (hyz : y ≤ z) : x ≤ z := by
  obtain ⟨hx, hy⟩ := notNaN_of_le hxy
  obtain ⟨-, hz⟩ := notNaN_of_le hyz
  rw [le_iff_orderKey hx hy] at hxy
  rw [le_iff_orderKey hy hz] at hyz
  rw [le_iff_orderKey hx hz]
  exact hxy.trans hyz

theorem lt_iff_orderKey {x y : Float} (hx : x.isNaN = false) (hy : y.isNaN = false) :
    x < y ↔ orderKey x < orderKey y := by
  show decide (x.toModel.unpack.lt y.toModel.unpack = true) = true ↔ _
  rw [decide_eq_true_eq, UnpackedFloat.lt, compare_unpack hx hy, beq_iff_eq, Option.some_inj,
    compare_lt_iff_lt]

theorem beq_iff_orderKey {x y : Float} (hx : x.isNaN = false) (hy : y.isNaN = false) :
    (x == y) = true ↔ orderKey x = orderKey y := by
  show (x.toModel.unpack.compare y.toModel.unpack == some Ordering.eq) = true ↔ _
  rw [compare_unpack hx hy, beq_iff_eq, Option.some_inj, compare_eq_iff_eq]

theorem le_of_lt_float {x y : Float} (h : x < y) : x ≤ y := by
  replace h : decide (x.toModel.unpack.lt y.toModel.unpack = true) = true := h
  show decide (x.toModel.unpack.le y.toModel.unpack = true) = true
  rw [decide_eq_true_eq, UnpackedFloat.lt, beq_iff_eq] at h
  rw [decide_eq_true_eq, UnpackedFloat.le, h]
  rfl

/-- finite doubles are ordered as their values are -/
theorem le_iff_value {x y : Float} (hx : x.isFinite = true) (hy : y.isFinite = true) :
    x ≤ y ↔ value x ≤ value y := by
  rw [le_iff_orderKey (isNaN_eq_false hx) (isNaN_eq_false hy), value_le_iff hx hy]

theorem lt_iff_value {x y : Float} (hx : x.isFinite = true) (hy : y.isFinite = true) :
    x < y ↔ value x < value y := by
  rw [lt_iff_orderKey (isNaN_eq_false hx) (isNaN_eq_false hy), ← not_le, ← value_le_iff hy hx,
    not_le]

end ChartLisp.Number
