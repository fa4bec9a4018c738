import ChartLisp.Proofs.Number.Rounding
import Mathlib

/-!
# The bits of a double

* `kind_iff`                        what the fields of the bits say of infinities and NaN
* `magnitudeBits`                   the bits without the sign
* `ofMagnitudeBits_magnitudeBits`   a double is its sign and these bits
* `magnitudeBits_ofFloat`, `normalized_ofFloat`   they are those of its mantissa and exponent, which
                                    are in the form that rounding gives
-/

namespace ChartLisp.Number

section Fields

open Float.Model (UnpackedFloat Format)

theorem exponentField_iff (b : BitVec 64) :
    @UnpackedFloat.unpackExponent Format.binary64 b = -1#11 ↔ b.toNat / 2 ^ 52 % 2 ^ 11 = 2047 := by
  rw [← BitVec.toNat_inj]
  simp [UnpackedFloat.unpackExponent, BitVec.extractLsb, BitVec.extractLsb',
    Nat.shiftRight_eq_div_pow]

theorem fractionField_iff (b : BitVec 64) :
    @UnpackedFloat.unpackMantissa Format.binary64 b = 0#52 ↔ b.toNat % 2 ^ 52 = 0 := by
  rw [← BitVec.toNat_inj]
  simp [UnpackedFloat.unpackMantissa, BitVec.extractLsb, BitVec.extractLsb']

/-- an exponent of all ones is that of an infinity or of NaN -/
theorem kind_iff (x : Float) :
    (x.isFinite = true ↔ x.toBits.toNat / 2 ^ 52 % 2 ^ 11 ≠ 2047) ∧
      (x.isInf = true ↔ x.toBits.toNat / 2 ^ 52 % 2 ^ 11 = 2047 ∧ x.toBits.toNat % 2 ^ 52 = 0) ∧
      (x.isNaN = true ↔ x.toBits.toNat / 2 ^ 52 % 2 ^ 11 = 2047 ∧ x.toBits.toNat % 2 ^ 52 ≠ 0) := by
  rw [← UInt64.toNat_toBitVec, ne_eq, ne_eq, ← exponentField_iff, ← fractionField_iff]
  show ((UnpackedFloat.unpack Format.binary64 x.toBits.toBitVec).isFinite = true ↔ _) ∧
    ((UnpackedFloat.unpack Format.binary64 x.toBits.toBitVec).isInf = true ↔ _) ∧
    ((UnpackedFloat.unpack Format.binary64 x.toBits.toBitVec).isNaN = true ↔ _)
  unfold UnpackedFloat.unpack
  dsimp only
  split
  · split <;> simp_all [UnpackedFloat.isFinite, UnpackedFloat.isInf, UnpackedFloat.isNaN]
  · split
    · split <;> simp_all [UnpackedFloat.isFinite, UnpackedFloat.isInf, UnpackedFloat.isNaN]
    · simp_all [UnpackedFloat.isFinite, UnpackedFloat.isInf, UnpackedFloat.isNaN]

end Fields

theorem isInf_eq_false {x : Float} (h : x.isFinite = true) : x.isInf = false :=
  Bool.eq_false_of_not_eq_true fun hinf =>
    (kind_iff x).1.mp h ((kind_iff x).2.1.mp hinf).1

theorem isNaN_eq_false {x : Float} (h : x.isFinite = true) : x.isNaN = false :=
  Bool.eq_false_of_not_eq_true fun hnan =>
    (kind_iff x).1.mp h ((kind_iff x).2.2.mp hnan).1

theorem isFinite_of_eq_false {x : Float} (hnan : x.isNaN = false) (hinf : x.isInf = false) :
    x.isFinite = true := by
  refine (kind_iff x).1.mpr fun hfield => ?_
  by_cases hfraction : x.toBits.toNat % 2 ^ 52 = 0
  · rw [(kind_iff x).2.1.mpr ⟨hfield, hfraction⟩] at hinf
    cases hinf
  · rw [(kind_iff x).2.2.mpr ⟨hfield, hfraction⟩] at hnan
    cases hnan

/-- the bits without the sign -/
def magnitudeBits (x : Float) : Nat := x.toBits.toNat % 2 ^ 63

theorem signBit_iff (x : Float) : signBit x = true ↔ 2 ^ 63 ≤ x.toBits.toNat := by
  have hlt : x.toBits.toNat < 2 ^ 64 := x.toBits.toNat_lt
  unfold signBit
  rw [bne_iff_ne, ne_eq, ← UInt64.toNat_inj]
  simp [Nat.shiftRight_eq_div_pow]

theorem ofMagnitudeBits_magnitudeBits (x : Float) :
    ofMagnitudeBits (signBit x) (magnitudeBits x) = x := by
  have hlt : x.toBits.toNat < 2 ^ 64 := x.toBits.toNat_lt
  have hbits : (if signBit x then Nat.pow 2 63 else 0) + magnitudeBits x = x.toBits.toNat := by
    unfold magnitudeBits
    by_cases hsign : signBit x = true
    · have := (signBit_iff x).mp hsign
      rw [if_pos hsign, Nat.pow_eq]
      omega
    · have := mt (signBit_iff x).mpr hsign
      rw [if_neg hsign]
      omega
  unfold ofMagnitudeBits
  rw [hbits, UInt64.ofNat_toNat, Float.ofBits_toBits]

theorem magnitudeBits_lt {x : Float} (h : x.isFinite = true) : magnitudeBits x < infinityBits := by
  have hfield := (kind_iff x).1.mp h
  unfold magnitudeBits infinityBits
  rw [Nat.pow_eq]
  omega

theorem magnitudeBits_of_isInf {x : Float} (h : x.isInf = true) :
    magnitudeBits x = infinityBits := by
  have hfields := (kind_iff x).2.1.mp h
  unfold magnitudeBits infinityBits
  rw [Nat.pow_eq]
  omega

theorem magnitudeBits_ofFloat (x : Float) :
    ((Binary.ofFloat x).exponent - leastExponent).toNat * Nat.pow 2 52 +
      (Binary.ofFloat x).mantissa = magnitudeBits x := by
  unfold Binary.ofFloat magnitudeBits leastExponent
  dsimp only [Nat.pow_eq]
  split <;> dsimp only <;> omega

theorem magnitudeBits_eq_zero {x : Float} (h : (Binary.ofFloat x).mantissa = 0) :
    magnitudeBits x = 0 := by
  rw [← magnitudeBits_ofFloat x, h]
  revert h
  unfold Binary.ofFloat
  dsimp only [Nat.pow_eq]
  split <;> dsimp only [leastExponent] <;> omega

theorem normalized_ofFloat {x : Float} (h : (Binary.ofFloat x).mantissa ≠ 0) :
    Cell.Normalized ⟨(Binary.ofFloat x).mantissa, (Binary.ofFloat x).exponent⟩ := by
  refine ⟨Nat.pos_of_ne_zero h, ?_, ?_, ?_⟩ <;> dsimp only <;> unfold Binary.ofFloat <;>
    dsimp only [Nat.pow_eq] <;> split <;> dsimp only [leastExponent] <;> omega

end ChartLisp.Number
