import ChartLisp.Proofs.Number.Value

/-!
# Sums, products and quotients are rounded to the nearest double

* `Digits`                   the extended mantissa that shifting to the right keeps of a quotient
* `hasBits_finite`           the bits of a mantissa and an exponent
* `Nearest`                  a double that is the nearest one to a number
* `nearest_roundWithAccuracy`  rounding gives it
* `nearest_add`, `nearest_sub`, `nearest_mul`, `nearest_div`   so do the four operations
-/

namespace ChartLisp.Number

open Float.Model (UnpackedFloat Format totalExponent)
open Float.Model.UnpackedFloat (Sign Accuracy ExtendedMantissa accuracyOfFraction)

/-! ## Shifting to the right -/

/-- the mantissa and the two bits after it are those of `n / d` -/
structure Digits (em : ExtendedMantissa) (n d : Nat) : Prop where
  mantissa : em.mantissa = n / d
  roundBit : em.roundBit = true ↔ d ≤ 2 * (n % d)
  stickyBit : em.stickyBit = true ↔ 2 * (n % d) ≠ 0 ∧ 2 * (n % d) ≠ d

namespace Digits

variable {em : ExtendedMantissa} {n d : Nat}

theorem of_fraction (hd : 0 < d) :
    Digits (.ofMantissaAndAccuracy (n / d) (accuracyOfFraction (n % d) d)) n d := by
  unfold accuracyOfFraction
  split
  · rename_i hzero
    refine ⟨rfl, ?_, ?_⟩
    · simp [ExtendedMantissa.ofMantissaAndAccuracy]
      omega
    · simp [ExtendedMantissa.ofMantissaAndAccuracy, hzero]
  · rename_i hne
    cases hcompare : compare (2 * (n % d)) d with
    | lt =>
      have := compare_lt_iff_lt.mp hcompare
      refine ⟨rfl, ?_, ?_⟩ <;> simp [ExtendedMantissa.ofMantissaAndAccuracy] <;> omega
    | eq =>
      have := compare_eq_iff_eq.mp hcompare
      refine ⟨rfl, ?_, ?_⟩ <;> simp [ExtendedMantissa.ofMantissaAndAccuracy] <;> omega
    | gt =>
      have := compare_gt_iff_gt.mp hcompare
      refine ⟨rfl, ?_, ?_⟩ <;> simp [ExtendedMantissa.ofMantissaAndAccuracy] <;> omega

theorem of_exact (m : Nat) : Digits (.ofMantissaAndAccuracy m .exact) m 1 := by
  refine ⟨(Nat.div_one m).symm, ?_, ?_⟩ <;>
    simp [ExtendedMantissa.ofMantissaAndAccuracy, Nat.mod_one]

theorem shiftRightOne (h : Digits em n d) (hd : 0 < d) : Digits em.shiftRightOne n (d * 2) := by
  obtain ⟨hmantissa, hround, hsticky⟩ := h
  have hlt := Nat.mod_lt n hd
  have hmod : n % (d * 2) = n % d + d * (n / d % 2) := Nat.mod_mul
  have hbit := Nat.mod_two_eq_zero_or_one (n / d)
  refine ⟨?_, ?_, ?_⟩
  · rw [← Nat.div_div_eq_div_mul, ← hmantissa]
    rfl
  · show (em.mantissa % 2 != 0) = true ↔ _
    rw [hmantissa, bne_iff_ne, hmod]
    obtain hb | hb := hbit <;> rw [hb] <;> omega
  · show (em.roundBit || em.stickyBit) = true ↔ _
    rw [Bool.or_eq_true, hround, hsticky, hmod]
    obtain hb | hb := hbit <;> rw [hb] <;> omega

theorem shiftRight (h : Digits em n d) (hd : 0 < d) (k : Nat) :
    Digits (em >>> k) n (d * 2 ^ k) := by
  induction k with
  | zero =>
    rw [pow_zero, Nat.mul_one]
    exact h
  | succ k ih =>
    rw [pow_succ, ← Nat.mul_assoc]
    exact ih.shiftRightOne (Nat.mul_pos hd (Nat.two_pow_pos k))

/-- rounding looks at nothing else -/
theorem roundedMantissa (h : Digits em n d) (hd : 0 < d) : em.roundedMantissa = roundDiv n d := by
  obtain ⟨hmantissa, hround, hsticky⟩ := h
  have hlt := Nat.mod_lt n hd
  obtain ⟨m, r, s⟩ := em
  dsimp only at hmantissa hround hsticky
  subst hmantissa
  unfold roundDiv
  dsimp only
  cases r <;> cases s <;>
    simp only [ExtendedMantissa.roundedMantissa, ExtendedMantissa.accuracy,
      Accuracy.roundToNearestEven, Bool.false_eq_true, true_iff, false_iff] at hround hsticky ⊢
  · rw [if_pos (by omega)]
  · rw [if_pos (by omega)]
  · rw [if_neg (by omega), if_neg (by omega)]
  · rw [if_neg (by omega), if_pos (by omega)]

end Digits

/-! ## Packing -/

/-- the double with this sign, mantissa and exponent -/
def packed (u : UnpackedFloat) : Float := .ofModel (.pack u)

theorem toNat_packComponents (s : Sign) (e : BitVec 11) (m : BitVec 52) :
    (UnpackedFloat.packComponents .binary64 s e m).toNat =
      s.toBitVec.toNat * 2 ^ 63 + (e.toNat * 2 ^ 52 + m.toNat) := by
  have he := e.isLt
  have hm := m.isLt
  unfold UnpackedFloat.packComponents
  rw [BitVec.toNat_append, BitVec.toNat_append, ← Nat.shiftLeft_add_eq_or_of_lt hm,
    ← Nat.shiftLeft_add_eq_or_of_lt he, Nat.shiftLeft_eq, Nat.shiftLeft_eq]
  omega

/-- a sign and magnitude bits that are not those of NaN -/
structure HasBits (z : Float) (s : Sign) (k : Nat) : Prop where
  toBits : z.toBits.toNat = s.toBitVec.toNat * 2 ^ 63 + k
  le : k ≤ infinityBits

theorem hasBits_zero (s : Sign) : HasBits (packed (.zero s)) s 0 :=
  ⟨toNat_packComponents s 0 0, Nat.zero_le _⟩

theorem hasBits_finite (s : Sign) {m : Nat} {e : Int} (hc : Cell.Normalized ⟨m, e⟩) :
    HasBits (packed (.finite s m e hc.pos)) s
      (min ((e - leastExponent).toNat * 2 ^ 52 + m) infinityBits) := by
  obtain ⟨hpos, hlt, hleast, hfull⟩ := hc
  dsimp only at hpos hlt hleast hfull
  dsimp only [leastExponent] at hleast hfull ⊢
  have hinfinity : infinityBits = 2047 * 2 ^ 52 := rfl
  refine ⟨?_, Nat.min_le_right _ _⟩
  show (UnpackedFloat.pack .binary64 (.finite s m e hpos)).toNat = _
  unfold UnpackedFloat.pack
  dsimp only
  have hbias : Format.binary64.exponentBias = 1023 := rfl
  have hbits : Format.binary64.mantissaBits = 53 := rfl
  rw [hbias, hbits]
  split
  · rename_i hlarge
    have := hfull (by omega)
    rw [Nat.min_eq_right (by omega)]
    exact toNat_packComponents s (-1#11) 0
  · rename_i hsmall
    rw [Nat.min_eq_left (by omega)]
    split
    · rename_i hlog
      have hle : 2 ^ 52 ≤ m := (Nat.le_log2 hpos.ne').mp (by omega)
      rw [toNat_packComponents, BitVec.toNat_ofNat, BitVec.toNat_ofNat]
      omega
    · rename_i hlog
      have hlow : m < 2 ^ 52 := by
        refine (Nat.log2_lt hpos.ne').mp ?_
        have := (Nat.log2_lt hpos.ne').mpr hlt
        omega
      have he : e = -1074 := by
        by_contra hne
        have := hfull hne
        omega
      rw [toNat_packComponents, BitVec.toNat_ofNat, BitVec.toNat_ofNat]
      omega

theorem orderKey_sign (x : Float) : orderKey x = (signOf x).apply (magnitudeBits x) := by
  rw [orderKey_eq]
  unfold signOf
  split <;> rfl

namespace HasBits

variable {z : Float} {s : Sign} {k : Nat}

theorem notNaN (h : HasBits z s k) : z.isNaN = false := by
  obtain ⟨hbits, hle⟩ := h
  rw [show infinityBits = 2047 * 2 ^ 52 from rfl] at hle
  refine Bool.eq_false_of_not_eq_true fun hnan => ?_
  have := (kind_iff z).2.2.mp hnan
  omega

theorem magnitudeBits_eq (h : HasBits z s k) : magnitudeBits z = k := by
  obtain ⟨hbits, hle⟩ := h
  rw [show infinityBits = 2047 * 2 ^ 52 from rfl] at hle
  unfold magnitudeBits
  omega

theorem signOf_eq (h : HasBits z s k) : signOf z = s := by
  obtain ⟨hbits, hle⟩ := h
  rw [show infinityBits = 2047 * 2 ^ 52 from rfl] at hle
  have hsign := signBit_iff z
  unfold signOf
  cases s with
  | negative =>
    rw [show (Sign.toBitVec .negative).toNat = 1 from rfl] at hbits
    exact if_pos (hsign.mpr (by omega))
  | positive =>
    rw [show (Sign.toBitVec .positive).toNat = 0 from rfl] at hbits
    exact if_neg (mt hsign.mp (by omega))

theorem key (h : HasBits z s k) : orderKey z = s.apply k := by
  rw [orderKey_sign, h.signOf_eq, h.magnitudeBits_eq]

end HasBits

/-! ## Rounding -/

/-- the double nearest to `q`, an infinity if `q` is beyond the largest one -/
structure Nearest (z : Float) (q : ℚ) : Prop where
  notNaN : z.isNaN = false
  key : orderKey z = nearestKey q

theorem nearestKey_sign (s : Sign) (q : ℚ) :
    nearestKey (s.apply 1 * q) = s.apply (nearestKey q) := by
  cases s with
  | negative =>
    show nearestKey ((-1 : Int) * q) = -nearestKey q
    rw [Int.cast_neg, Int.cast_one, neg_one_mul, nearestKey_neg]
  | positive =>
    show nearestKey ((1 : Int) * q) = nearestKey q
    rw [Int.cast_one, one_mul]

theorem HasBits.nearest {z : Float} {s : Sign} {k : Nat} {q : ℚ} (h : HasBits z s k)
    (hk : nearestKey q = k) : Nearest z (s.apply 1 * q) :=
  ⟨h.notNaN, by rw [h.key, nearestKey_sign, hk]⟩

theorem bitMagnitude_eq {n d : Nat} {b : Int} (hn : 0 < n) (hd : 0 < d)
    (hlo : (2 : ℚ) ^ b ≤ n / d) (hhi : (n / d : ℚ) < 2 ^ (b + 1)) : bitMagnitude n d = b := by
  have := lt_of_two_zpow_lt (hlo.trans_lt (lt_bitMagnitude hd))
  have := lt_of_two_zpow_lt ((bitMagnitude_le hn hd).trans_lt hhi)
  omega

theorem targetExponent_eq (t : Int) :
    Format.binary64.targetExponent t = max leastExponent (t - 53) := max_comm _ _

theorem scaled_div (n : Nat) {d : Nat} (hd : 0 < d) (e : Int) :
    ((n * twoUp e : Nat) / (d * twoDown e : Nat) : ℚ) = n / d * 2 ^ e := by
  have hd' : (d : ℚ) ≠ 0 := Nat.cast_ne_zero.mpr hd.ne'
  have hdown : (twoDown e : ℚ) ≠ 0 := Nat.cast_ne_zero.mpr (twoDown_pos e).ne'
  rw [Nat.cast_mul, Nat.cast_mul, twoUp_eq]
  field_simp

theorem bitMagnitude_scaled {n d : Nat} (hd : 0 < d) (hle : d ≤ n) (e : Int) :
    bitMagnitude (n * twoUp e) (d * twoDown e) = (n / d).log2 + e := by
  have hd' : (0 : ℚ) < d := Nat.cast_pos.mpr hd
  have hm : n / d ≠ 0 := (Nat.div_pos hle hd).ne'
  have hlo : (2 : ℚ) ^ ((n / d).log2 : Int) ≤ n / d := by
    rw [le_div_iff₀ hd', zpow_natCast]
    exact_mod_cast (Nat.mul_le_mul_right d (Nat.log2_self_le hm)).trans (Nat.div_mul_le_self n d)
  have hhi : (n / d : ℚ) < 2 ^ ((n / d).log2 + 1 : Int) := by
    rw [div_lt_iff₀ hd', ← Nat.cast_succ, zpow_natCast]
    exact_mod_cast (Nat.div_lt_iff_lt_mul hd).mp Nat.lt_log2_self
  refine bitMagnitude_eq (Nat.mul_pos (hd.trans_le hle) (twoUp_pos e))
    (Nat.mul_pos hd (twoDown_pos e)) ?_ ?_
  · rw [scaled_div n hd, two_zpow_add]
    exact mul_le_mul_of_nonneg_right hlo (two_zpow_pos e).le
  · rw [scaled_div n hd, add_right_comm, two_zpow_add]
    exact mul_lt_mul_of_pos_right hhi (two_zpow_pos e)

/-- the exponent that shifting aims at is the one to round with -/
theorem targetExponent_scaled {n d : Nat} {e : Int} (hn : 0 < n) (hd : 0 < d)
    (he : e ≤ roundingExponent (n * twoUp e) (d * twoDown e)) :
    Format.binary64.targetExponent (totalExponent (n / d) e) =
      roundingExponent (n * twoUp e) (d * twoDown e) := by
  rw [targetExponent_eq, totalExponent]
  obtain hle | hlt := le_or_gt d n
  · rw [roundingExponent, bitMagnitude_scaled hd hle]
    omega
  · -- the quotient is less than one, so the exponent is already the least one
    have hd' : (0 : ℚ) < d := Nat.cast_pos.mpr hd
    have hmag := bitMagnitude_le (Nat.mul_pos hn (twoUp_pos e)) (Nat.mul_pos hd (twoDown_pos e))
    have hone : (n / d : ℚ) * 2 ^ e < 2 ^ e := by
      refine mul_lt_of_lt_one_left (two_zpow_pos e) ?_
      rw [div_lt_one hd']
      exact_mod_cast hlt
    rw [scaled_div n hd] at hmag
    have hbelow := lt_of_two_zpow_lt (hmag.trans_lt hone)
    rw [Nat.div_eq_of_lt hlt, Nat.log2_zero]
    unfold roundingExponent at he ⊢
    omega

theorem roundDiv_congr {n d n' d' : Nat} (hd : 0 < d) (hd' : 0 < d') (h : n * d' = n' * d) :
    roundDiv n d = roundDiv n' d' :=
  le_antisymm (roundDiv_le_roundDiv hd hd' h.le) (roundDiv_le_roundDiv hd' hd h.ge)

theorem roundDiv_shifted {n d : Nat} {e : Int} (hd : 0 < d)
    (he : e ≤ roundingExponent (n * twoUp e) (d * twoDown e)) :
    roundDiv n (d * 2 ^ (roundingExponent (n * twoUp e) (d * twoDown e) - e).toNat) =
      roundedMantissa (n * twoUp e) (d * twoDown e) := by
  unfold roundedMantissa
  generalize roundingExponent (n * twoUp e) (d * twoDown e) = t at he ⊢
  refine roundDiv_congr (Nat.mul_pos hd (Nat.two_pow_pos _))
    (Nat.mul_pos (Nat.mul_pos hd (twoDown_pos e)) (twoUp_pos t)) ?_
  have hpow : twoDown e * twoUp t = twoUp e * twoDown t * 2 ^ (t - e).toNat := by
    unfold twoDown twoUp
    rw [Nat.pow_eq, Nat.pow_eq, Nat.pow_eq, Nat.pow_eq, ← pow_add, ← pow_add, ← pow_add]
    congr 1
    omega
  rw [Nat.mul_assoc d, hpow]
  ring

/-- a rounded mantissa that overflows by one bit is halved, which leaves the bits the same -/
theorem shiftToTargetExponent_exact {m : Nat} {e : Int} (hm : m ≤ 2 ^ 53) (he : leastExponent ≤ e) :
    ((UnpackedFloat.shiftToTargetExponent .binary64 m e .exact).1.mantissa,
      (UnpackedFloat.shiftToTargetExponent .binary64 m e .exact).2) =
        if m < 2 ^ 53 then (m, e) else (2 ^ 52, e + 1) := by
  have hshift : UnpackedFloat.shiftToTargetExponent .binary64 m e .exact =
      (ExtendedMantissa.mk m false false >>> (max leastExponent (m.log2 + 1 + e - 53) - e).toNat,
        e + (max leastExponent (m.log2 + 1 + e - 53) - e).toNat) := by
    rw [← targetExponent_eq]
    rfl
  rw [hshift]
  split
  · rename_i hlt
    have hlog : m.log2 < 53 := by
      by_cases hzero : m = 0
      · rw [hzero]
        decide
      · exact (Nat.log2_lt hzero).mpr hlt
    have hk : (max leastExponent (m.log2 + 1 + e - 53) - e).toNat = 0 := by omega
    rw [hk]
    exact Prod.ext rfl (Int.add_zero e)
  · have heq : m = 2 ^ 53 := by omega
    have hk : (max leastExponent (m.log2 + 1 + e - 53) - e).toNat = 1 := by
      rw [heq, Nat.log2_two_pow]
      omega
    rw [hk, heq]
    rfl

/-- what is left of rounding once the mantissa is rounded -/
theorem nearest_rounded (s : Sign) {m : Nat} {e : Int} {q : ℚ} (hm : m ≤ 2 ^ 53)
    (he : leastExponent ≤ e) (hfull : leastExponent < e → 2 ^ 52 ≤ m)
    (hq : nearestKey q = (min ((e - leastExponent).toNat * 2 ^ 52 + m) infinityBits : Nat)) :
    Nearest (packed (
      if h : (UnpackedFloat.shiftToTargetExponent .binary64 m e .exact).1.mantissa = 0 then .zero s
      else .finite s (UnpackedFloat.shiftToTargetExponent .binary64 m e .exact).1.mantissa
        (UnpackedFloat.shiftToTargetExponent .binary64 m e .exact).2 (Nat.pos_of_ne_zero h)))
      (s.apply 1 * q) := by
  have hshift := shiftToTargetExponent_exact hm he
  generalize UnpackedFloat.shiftToTargetExponent .binary64 m e .exact = r at hshift
  obtain ⟨⟨m', _, _⟩, e'⟩ := r
  dsimp only at hshift ⊢
  split at hshift
  · rename_i hlt
    obtain ⟨rfl, rfl⟩ := Prod.mk.inj hshift
    split
    · rename_i hzero
      have hleast : e' = leastExponent := by
        by_contra hne
        have := hfull (by omega)
        omega
      refine (hasBits_zero s).nearest ?_
      rw [hq, hzero, hleast, Int.sub_self]
      rfl
    · rename_i hne
      have hc : Cell.Normalized ⟨m', e'⟩ :=
        ⟨Nat.pos_of_ne_zero hne, hlt, he, fun hne => hfull (by dsimp only at hne; omega)⟩
      exact (hasBits_finite s hc).nearest hq
  · obtain ⟨rfl, rfl⟩ := Prod.mk.inj hshift
    have hc : Cell.Normalized ⟨2 ^ 52, e + 1⟩ :=
      ⟨Nat.two_pow_pos 52, by dsimp only; omega, by dsimp only; omega, fun _ => le_rfl⟩
    have hbits : (e - leastExponent).toNat * 2 ^ 52 + m =
        (e + 1 - leastExponent).toNat * 2 ^ 52 + 2 ^ 52 := by omega
    rw [dif_neg (Nat.two_pow_pos 52).ne']
    refine (hasBits_finite s hc).nearest ?_
    rw [hq, hbits]

theorem nearest_roundWithAccuracy (s : Sign) {n d m : Nat} {e : Int} {acc : Accuracy} (hn : 0 < n)
    (hd : 0 < d) (hm : m = n / d) (hacc : Digits (.ofMantissaAndAccuracy m acc) n d)
    (he : e ≤ roundingExponent (n * twoUp e) (d * twoDown e)) :
    Nearest (packed (UnpackedFloat.roundWithAccuracy .binary64 s m e acc))
      (s.apply 1 * (n / d * 2 ^ e)) := by
  have hN := Nat.mul_pos hn (twoUp_pos e)
  have hD := Nat.mul_pos hd (twoDown_pos e)
  have htarget := targetExponent_scaled hn hd he
  have hdigits := hacc.shiftRight hd
    (roundingExponent (n * twoUp e) (d * twoDown e) - e).toNat
  have hround := hdigits.roundedMantissa (Nat.mul_pos hd (Nat.two_pow_pos _))
  rw [roundDiv_shifted hd he] at hround
  have hfirst : UnpackedFloat.shiftToTargetExponent .binary64 m e acc =
      (ExtendedMantissa.ofMantissaAndAccuracy m acc >>>
        (roundingExponent (n * twoUp e) (d * twoDown e) - e).toNat,
          roundingExponent (n * twoUp e) (d * twoDown e)) := by
    unfold UnpackedFloat.shiftToTargetExponent UnpackedFloat.shiftToExponent
    rw [hm, htarget]
    exact Prod.ext rfl (by dsimp only; omega)
  have hle := roundedMantissa_le (n := n * twoUp e) hD
  have hfull := le_roundedMantissa hN hD
  have hleast : leastExponent ≤ roundingExponent (n * twoUp e) (d * twoDown e) := le_max_left _ _
  have hkey := nearestKey_div (n := n * twoUp e) hD
  rw [scaled_div n hd, nearestBits_of_pos hN, Nat.pow_eq] at hkey
  unfold UnpackedFloat.roundWithAccuracy
  rw [hfirst]
  dsimp only
  rw [hround]
  exact nearest_rounded s hle hleast hfull hkey

theorem roundingExponent_congr {n d n' d' : Nat} (hn : 0 < n) (hn' : 0 < n') (hd : 0 < d)
    (hd' : 0 < d') (h : (n / d : ℚ) = n' / d') : roundingExponent n d = roundingExponent n' d' := by
  have hlo := bitMagnitude_le hn' hd'
  have hhi := lt_bitMagnitude (n := n') hd'
  rw [← h] at hlo hhi
  unfold roundingExponent
  rw [bitMagnitude_eq hn hd hlo hhi]

/-- a mantissa is rounded after its exponent is lowered, if it has too few bits -/
theorem nearest_round (s : Sign) {m : Nat} (hm : 0 < m) (e : Int) :
    Nearest (packed (UnpackedFloat.round .binary64 s m e)) (s.apply 1 * (m * 2 ^ e)) := by
  have htarget : Format.binary64.targetExponent (totalExponent m e) =
      roundingExponent (m * twoUp e) (1 * twoDown e) := by
    rw [targetExponent_eq, totalExponent, roundingExponent, bitMagnitude_scaled Nat.one_pos hm,
      Nat.div_one]
    omega
  unfold UnpackedFloat.round UnpackedFloat.decreaseExponent
  dsimp only
  rw [htarget, Nat.shiftLeft_eq]
  generalize ht : roundingExponent (m * twoUp e) (1 * twoDown e) = t
  generalize hk : (e - t).toNat = k
  have hpos : 0 < m * 2 ^ k := Nat.mul_pos hm (Nat.two_pow_pos k)
  have hvalue : ((m * 2 ^ k : Nat) / (1 : Nat) : ℚ) * 2 ^ (e - k) =
      (m : ℚ) / (1 : Nat) * 2 ^ e := by
    rw [zpow_sub₀ two_ne_zero, zpow_natCast]
    push_cast
    field_simp
  have hexp : roundingExponent (m * 2 ^ k * twoUp (e - k)) (1 * twoDown (e - k)) = t := by
    rw [← ht]
    refine roundingExponent_congr (Nat.mul_pos hpos (twoUp_pos _)) (Nat.mul_pos hm (twoUp_pos _))
      (Nat.mul_pos Nat.one_pos (twoDown_pos _)) (Nat.mul_pos Nat.one_pos (twoDown_pos _)) ?_
    rw [scaled_div _ Nat.one_pos, scaled_div _ Nat.one_pos, hvalue]
  have hnearest := nearest_roundWithAccuracy s hpos Nat.one_pos (Nat.div_one _).symm
    (Digits.of_exact _) (e := e - k) (by rw [hexp]; omega)
  rwa [hvalue, Nat.cast_one, div_one] at hnearest

theorem nearest_zero (s : Sign) : Nearest (packed (.zero s)) 0 := by
  have h := (hasBits_zero s).nearest nearestKey_zero
  rwa [mul_zero] at h

theorem nearest_normalize (m : Int) (e : Int) (s : Sign) :
    Nearest (packed (UnpackedFloat.normalize .binary64 m e s)) (m * 2 ^ e) := by
  have hcast {k : Int} (hk : 0 ≤ k) : ((k.toNat : Nat) : ℚ) = k := by
    exact_mod_cast congrArg (Int.cast (R := ℚ)) (Int.toNat_of_nonneg hk)
  unfold UnpackedFloat.normalize
  cases hsign : compare m 0 with
  | lt =>
    have hneg := compare_lt_iff_lt.mp hsign
    have h := nearest_round .negative (m := (-m).toNat) (by omega) e
    rw [hcast (by omega)] at h
    convert h using 1
    rw [show Sign.apply .negative 1 = -1 from rfl]
    push_cast
    ring
  | eq =>
    rw [compare_eq_iff_eq.mp hsign, Int.cast_zero, zero_mul]
    exact nearest_zero s
  | gt =>
    have hpos := compare_gt_iff_gt.mp hsign
    have h := nearest_round .positive (m := m.toNat) (by omega) e
    rw [hcast (by omega)] at h
    convert h using 1
    rw [show Sign.apply .positive 1 = 1 from rfl]
    push_cast
    ring

/-! ## The four operations -/

/-- the number that a finite double is to the operations -/
inductive Reads : UnpackedFloat → ℚ → Prop where
  | zero (s : Sign) : Reads (.zero s) 0
  | finite (s : Sign) {m : Nat} {e : Int} (hc : Cell.Normalized ⟨m, e⟩) :
      Reads (.finite s m e hc.pos) (s.apply 1 * (m * 2 ^ e))

theorem value_eq (x : Float) : value x = (signOf x).apply 1 * absValue x := by
  unfold value signOf
  split
  · show _ = ((-1 : Int) : ℚ) * absValue x
    rw [Int.cast_neg, Int.cast_one, neg_one_mul]
  · show _ = ((1 : Int) : ℚ) * absValue x
    rw [Int.cast_one, one_mul]

theorem value_of_zero {x : Float} (h : (Binary.ofFloat x).mantissa = 0) : value x = 0 := by
  rw [value_eq, absValue, h, Nat.cast_zero, zero_mul, mul_zero]

theorem reads_unpack {x : Float} (h : x.isFinite = true) : Reads x.toModel.unpack (value x) := by
  have hunpacked := unpacked x
  generalize x.toModel.unpack = u at hunpacked
  cases hunpacked with
  | nan hnan => rw [isNaN_eq_false h] at hnan; cases hnan
  | infinity hinf => rw [isInf_eq_false h] at hinf; cases hinf
  | zero _ hm =>
    rw [value_of_zero hm]
    exact .zero _
  | finite _ hm =>
    rw [value_eq]
    exact .finite _ (normalized_ofFloat hm.ne')

theorem sign_apply (s : Sign) (k : Int) : s.apply k = s.apply 1 * k := by
  cases s
  · exact (neg_one_mul k).symm
  · exact (one_mul k).symm

theorem sign_mul (s t : Sign) : (s * t).apply 1 = s.apply 1 * t.apply 1 := by
  cases s <;> cases t <;> rfl

theorem sign_div (s t : Sign) : (s / t).apply 1 = s.apply 1 * t.apply 1 := by
  cases s <;> cases t <;> rfl

theorem sign_inv (s : Sign) : (s.apply 1 : ℚ)⁻¹ = s.apply 1 := by
  cases s <;> norm_num [Sign.apply]

theorem sign_neg (s : Sign) : (-s).apply 1 = -s.apply 1 := by
  cases s <;> rfl

namespace Reads

variable {u v : UnpackedFloat} {p q : ℚ}

theorem nearest (h : Reads u q) : Nearest (packed u) q := by
  cases h with
  | zero s => exact nearest_zero s
  | finite s hc =>
    have hkey := nearestKey_cell hc
    exact (hasBits_finite s hc).nearest hkey

theorem neg (h : Reads u q) : Reads u.neg (-q) := by
  cases h with
  | zero s =>
    rw [neg_zero]
    exact .zero _
  | finite s hc =>
    have h := Reads.finite (-s) hc
    rwa [sign_neg, Int.cast_neg, neg_mul] at h

/-- a mantissa at a smaller exponent -/
theorem shiftLeft_mul {m : Nat} {e e' : Int} (h : e' ≤ e) :
    ((m <<< (e - e').toNat : Nat) : ℚ) * 2 ^ e' = m * 2 ^ e := by
  rw [Nat.shiftLeft_eq, Nat.cast_mul, Nat.cast_pow, Nat.cast_ofNat, ← zpow_natCast,
    Int.toNat_of_nonneg (by omega), mul_assoc, ← two_zpow_add, sub_add_cancel]

theorem add (hu : Reads u p) (hv : Reads v q) :
    Nearest (packed (UnpackedFloat.add .binary64 u v)) (p + q) := by
  cases hu with
  | zero s =>
    rw [zero_add]
    cases hv with
    | zero t =>
      simp only [UnpackedFloat.add]
      split <;> exact nearest_zero _
    | finite t hd =>
      simp only [UnpackedFloat.add]
      exact (Reads.finite t hd).nearest
  | @finite s m e hc =>
    cases hv with
    | zero t =>
      simp only [UnpackedFloat.add, add_zero]
      exact (Reads.finite s hc).nearest
    | @finite t m' e' hd =>
      have h := nearest_normalize
        (s.apply (m <<< (e - min e e').toNat : Nat) + t.apply (m' <<< (e' - min e e').toNat : Nat))
        (min e e') .positive
      have hsum : ((s.apply (m <<< (e - min e e').toNat : Nat) +
          t.apply (m' <<< (e' - min e e').toNat : Nat) : Int) : ℚ) * 2 ^ min e e' =
            s.apply 1 * (m * 2 ^ e) + t.apply 1 * (m' * 2 ^ e') := by
        rw [sign_apply s, sign_apply t, Int.cast_add, Int.cast_mul, Int.cast_mul, Int.cast_natCast,
          Int.cast_natCast, add_mul, mul_assoc, mul_assoc, shiftLeft_mul (min_le_left e e'),
          shiftLeft_mul (min_le_right e e')]
      rw [hsum] at h
      simp only [UnpackedFloat.add, UnpackedFloat.decreaseExponent]
      exact h

/-- the exact product of two mantissas has the bits that rounding needs -/
theorem le_roundingExponent_mul {m m' : Nat} {e e' : Int} (hc : Cell.Normalized ⟨m, e⟩)
    (hd : Cell.Normalized ⟨m', e'⟩) :
    e + e' ≤ roundingExponent (m * m' * twoUp (e + e')) (1 * twoDown (e + e')) := by
  obtain ⟨hm, -, he, hfull⟩ := hc
  obtain ⟨hm', -, he', hfull'⟩ := hd
  dsimp only at hm hm' he he' hfull hfull'
  have hpos := Nat.mul_pos hm hm'
  rw [roundingExponent, bitMagnitude_scaled Nat.one_pos hpos, Nat.div_one]
  by_cases hlow : e + e' ≤ leastExponent
  · omega
  · have hlarge : 2 ^ 52 ≤ m * m' := by
      by_cases hleast : e = leastExponent
      · have := hfull' (by dsimp only [leastExponent] at *; omega)
        exact this.trans (Nat.le_mul_of_pos_left m' hm)
      · exact (hfull hleast).trans (Nat.le_mul_of_pos_right m hm')
    have := (Nat.le_log2 hpos.ne').mpr hlarge
    omega

theorem mul (hu : Reads u p) (hv : Reads v q) :
    Nearest (packed (UnpackedFloat.mul .binary64 u v)) (p * q) := by
  cases hu with
  | zero s =>
    rw [zero_mul]
    cases hv <;> exact nearest_zero _
  | @finite s m e hc =>
    cases hv with
    | zero t =>
      rw [mul_zero]
      exact nearest_zero _
    | @finite t m' e' hd =>
      have h := nearest_roundWithAccuracy (s * t) (Nat.mul_pos hc.pos hd.pos) Nat.one_pos
        (Nat.div_one _).symm (Digits.of_exact _) (le_roundingExponent_mul hc hd)
      have hproduct : ((s * t).apply 1 : ℚ) *
          ((m * m' : Nat) / (1 : Nat) * 2 ^ (e + e')) =
            s.apply 1 * (m * 2 ^ e) * (t.apply 1 * (m' * 2 ^ e')) := by
        rw [sign_mul, two_zpow_add]
        push_cast
        ring
      rw [hproduct] at h
      simp only [UnpackedFloat.mul]
      exact h

/-- the quotient of two mantissas is taken to the bits that rounding needs -/
theorem le_bitMagnitude_div {m m' : Nat} (hm : 0 < m) (hm' : 0 < m') {n d : Nat} (hd : 0 < d)
    {e : Int} (h : (n / d : ℚ) = m / m' * 2 ^ e) :
    (m.log2 : Int) - m'.log2 + e - 1 ≤ bitMagnitude n d := by
  have hpos : (0 : ℚ) < m' := Nat.cast_pos.mpr hm'
  have hlo : (2 : ℚ) ^ (m.log2 : Int) ≤ m := by
    rw [zpow_natCast]
    exact_mod_cast Nat.log2_self_le hm.ne'
  have hhi : (m' : ℚ) ≤ 2 ^ (m'.log2 + 1 : Int) := by
    rw [← Nat.cast_succ, zpow_natCast]
    exact_mod_cast Nat.lt_log2_self.le
  have hquot : (2 : ℚ) ^ ((m.log2 : Int) - (m'.log2 + 1) + e) ≤ n / d := by
    rw [h, two_zpow_add, zpow_sub₀ two_ne_zero]
    exact mul_le_mul_of_nonneg_right (div_le_div₀ (Nat.cast_nonneg m) hlo hpos hhi)
      (two_zpow_pos e).le
  have := lt_of_two_zpow_lt (hquot.trans_lt (lt_bitMagnitude hd))
  omega

theorem div (hu : Reads u p) (hv : Reads v q) (hq : q ≠ 0) :
    Nearest (packed (UnpackedFloat.div .binary64 u v)) (p / q) := by
  cases hv with
  | zero _ => exact absurd rfl hq
  | @finite t' m' e' hd =>
    cases hu with
    | zero s =>
      rw [zero_div]
      exact nearest_zero _
    | @finite s m e hc =>
      obtain ⟨hm, hm'⟩ : 0 < m ∧ 0 < m' := ⟨hc.pos, hd.pos⟩
      simp only [UnpackedFloat.div, UnpackedFloat.divCore]
      generalize ht : min (e - e') (Format.binary64.targetExponent
        (totalExponent m e - totalExponent m' e')) = t
      have hle : t ≤ e - e' := ht ▸ min_le_left _ _
      have hvalue : ((m <<< (e - e' - t).toNat : Nat) / m' : ℚ) * 2 ^ t =
          m / m' * 2 ^ (e - e') := by
        rw [div_mul_eq_mul_div, shiftLeft_mul hle, div_mul_eq_mul_div]
      have hn : 0 < m <<< (e - e' - t).toNat := by
        rw [Nat.shiftLeft_eq]
        exact Nat.mul_pos hm (Nat.two_pow_pos _)
      generalize m <<< (e - e' - t).toNat = n at hvalue hn
      have hexp : t ≤ roundingExponent (n * twoUp t) (m' * twoDown t) := by
        have hmag := le_bitMagnitude_div hm hm' (Nat.mul_pos hm' (twoDown_pos t))
          ((scaled_div n hm' t).trans hvalue)
        rw [targetExponent_eq, totalExponent, totalExponent] at ht
        unfold roundingExponent
        omega
      have h := nearest_roundWithAccuracy (s / t') hn hm' rfl (Digits.of_fraction hm') hexp
      have hquotient : ((s / t').apply 1 : ℚ) * (n / m' * 2 ^ t) =
          s.apply 1 * (m * 2 ^ e) / (t'.apply 1 * (m' * 2 ^ e')) := by
        rw [hvalue, sign_div, div_eq_mul_inv _ ((t'.apply 1 : ℚ) * _), mul_inv, sign_inv,
          zpow_sub₀ two_ne_zero]
        push_cast
        field_simp
      rw [hquotient] at h
      exact h

theorem abs (h : Reads u q) : Reads u.abs |q| := by
  cases h with
  | zero s =>
    rw [abs_zero]
    exact .zero _
  | @finite s m e hc =>
    have hsign : |((s.apply 1 : Int) : ℚ)| = ((Sign.positive.apply 1 : Int) : ℚ) := by
      cases s <;> norm_num [Sign.apply]
    have hpos : (0 : ℚ) ≤ m * 2 ^ e := mul_nonneg (Nat.cast_nonneg m) (two_zpow_pos e).le
    rw [abs_mul, hsign, abs_of_nonneg hpos]
    exact .finite .positive hc

end Reads

/-- a difference is the sum with the other sign -/
theorem sub_eq_add (u v : UnpackedFloat) :
    UnpackedFloat.sub .binary64 u v = UnpackedFloat.add .binary64 u v.neg := by
  have happly (s : Sign) (k : Int) : (-s).apply k = -s.apply k := by
    cases s
    · exact (neg_neg k).symm
    · rfl
  cases u <;> cases v <;>
    simp only [UnpackedFloat.sub, UnpackedFloat.add, UnpackedFloat.neg, happly, Int.sub_eq_add_neg]

variable {x y : Float}

theorem nearest_add (hx : x.isFinite = true) (hy : y.isFinite = true) :
    Nearest (x + y) (value x + value y) := (reads_unpack hx).add (reads_unpack hy)

theorem nearest_sub (hx : x.isFinite = true) (hy : y.isFinite = true) :
    Nearest (x - y) (value x - value y) := by
  have h := (reads_unpack hx).add (reads_unpack hy).neg
  rw [← sub_eq_add, ← sub_eq_add_neg] at h
  exact h

theorem nearest_mul (hx : x.isFinite = true) (hy : y.isFinite = true) :
    Nearest (x * y) (value x * value y) := (reads_unpack hx).mul (reads_unpack hy)

theorem nearest_div (hx : x.isFinite = true) (hy : y.isFinite = true) (hne : value y ≠ 0) :
    Nearest (x / y) (value x / value y) := (reads_unpack hx).div (reads_unpack hy) hne

theorem nearest_abs (hx : x.isFinite = true) : Nearest x.abs |value x| :=
  (reads_unpack hx).abs.nearest

end ChartLisp.Number
