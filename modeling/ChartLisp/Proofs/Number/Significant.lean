import ChartLisp.Number.Significant
import ChartLisp.Proofs.Number.Decimal
import ChartLisp.Proofs.Number.Midpoint

/-!
# Rounding to significant digits

The form of a text is chosen by a first rounding, and its positional form rounds the number a
second time, at the place that the first one gave.  Where the first rounding carries into a new
power of ten the second is coarser by one digit.  Both come to the same number, since the power of
ten is a multiple of either unit and the number lies within half a unit of it.

* `NearestMultiple`          the nearest multiple of a unit, ties to the even one
* `magnitude_eq`             the magnitude of a quotient is its decimal logarithm
* `roundAt_nearest`          rounding a quotient
* `roundSignificant_rounded` the first rounding
* `roundAt_leading`          the second one
* `quotientText?_eq_some`    the form of a text, where there is one
* `significant_rounded`      what the text of a double says
-/

namespace ChartLisp.Number

/-! ## Nearest multiples -/

/-- `m * u` is as near to `q` as a multiple of `u` can be, and `m` is even if there are two -/
structure NearestMultiple (q u : ℚ) (m : ℤ) : Prop where
  near : |q - m * u| ≤ u / 2
  even : |q - m * u| = u / 2 → Even m

namespace NearestMultiple

variable {q u : ℚ} {m a : ℤ}

theorem neg (h : NearestMultiple q u m) : NearestMultiple (-q) u (-m) := by
  have habs : |-q - (-m : ℤ) * u| = |q - m * u| := by
    rw [← abs_neg]
    congr 1
    push_cast
    ring
  refine ⟨by rw [habs]; exact h.near, fun htie => ?_⟩
  rw [habs] at htie
  exact (h.even htie).neg

theorem scale {v : ℚ} (hv : 0 < v) (h : NearestMultiple q u m) :
    NearestMultiple (q * v) (u * v) m := by
  have habs : |q * v - m * (u * v)| = |q - m * u| * v := by
    rw [← mul_assoc, ← sub_mul, abs_mul, abs_of_pos hv]
  have hhalf : u * v / 2 = u / 2 * v := by ring
  refine ⟨?_, fun htie => ?_⟩
  · rw [habs, hhalf]
    exact mul_le_mul_of_nonneg_right h.near hv.le
  · rw [habs, hhalf] at htie
    exact h.even (mul_right_cancel₀ hv.ne' htie)

/-- whole numbers that differ by less than one are the same -/
theorem eq_of_mul_lt (hu : 0 < u) (h : |m * u - a * u| < u) : m = a := by
  rw [← sub_mul, abs_mul, abs_of_pos hu] at h
  have hlt : |((m - a : ℤ) : ℚ)| < 1 := by
    push_cast
    exact lt_of_mul_lt_mul_right (by rwa [one_mul]) hu.le
  have := Int.abs_lt_one_iff.mp (by exact_mod_cast hlt)
  omega

theorem eq_of_near (hu : 0 < u) (h : NearestMultiple q u m) (ha : |q - a * u| < u / 2) : m = a := by
  refine eq_of_mul_lt hu ?_
  calc |m * u - a * u| = |(q - a * u) - (q - m * u)| := by congr 1; ring
    _ ≤ |q - a * u| + |q - m * u| := abs_sub _ _
    _ < u := by linarith [h.near]

theorem le_of_mul_le (hu : 0 < u) (h : NearestMultiple q u m) (ha : a * u ≤ q) : a ≤ m := by
  by_contra hlt
  have hcast : (m + 1 : ℚ) ≤ a := by exact_mod_cast not_le.mp hlt
  have hle := mul_le_mul_of_nonneg_right hcast hu.le
  have := (abs_le.mp h.near).2
  linarith

theorem ge_of_le_mul (hu : 0 < u) (h : NearestMultiple q u m) (ha : q ≤ a * u) : m ≤ a := by
  by_contra hlt
  have hcast : (a + 1 : ℚ) ≤ m := by exact_mod_cast not_le.mp hlt
  have hle := mul_le_mul_of_nonneg_right hcast hu.le
  have := (abs_le.mp h.near).1
  linarith

end NearestMultiple

/-! ## Quotients -/

variable {n d count : Nat}

theorem magnitude_eq (hn : 0 < n) (hd : 0 < d) : magnitude n d = Int.log 10 (n / d : ℚ) := by
  have hd' : (0 : ℚ) < d := Nat.cast_pos.mpr hd
  have hten (k : Int) : (0 : ℚ) < 10 ^ k := zpow_pos (by norm_num) k
  unfold magnitude
  dsimp only
  have hs : d < 10 ^ digitCount d := by
    rw [digitCount_eq]
    exact Nat.lt_pow_succ_log_self (by decide) d
  generalize digitCount d = s at hs
  rw [digitCount_eq, Nat.pow_eq]
  have hlarge : d ≤ n * 10 ^ s := hs.le.trans (Nat.le_mul_of_pos_left _ hn)
  have hquot : n * 10 ^ s / d ≠ 0 := (Nat.div_pos hlarge hd).ne'
  have hlo := Nat.pow_log_le_self 10 hquot
  have hhi := Nat.lt_pow_succ_log_self (b := 10) (by decide) (n * 10 ^ s / d)
  generalize Nat.log 10 (n * 10 ^ s / d) = t at hlo hhi
  have hlo' : (10 ^ t * d : ℚ) ≤ n * 10 ^ s := by
    exact_mod_cast (Nat.mul_le_mul_right d hlo).trans (Nat.div_mul_le_self _ d)
  have hhi' : (n * 10 ^ s : ℚ) < 10 ^ (t + 1) * d := by
    exact_mod_cast (Nat.div_lt_iff_lt_mul hd).mp hhi
  refine (log_eq ?_ ?_).symm
  · rw [le_div_iff₀ hd', show ((t + 1 : Nat) : Int) - 1 - s = t - s by push_cast; ring,
      zpow_sub₀ (by norm_num), zpow_natCast, zpow_natCast, div_mul_eq_mul_div,
      div_le_iff₀ (by positivity)]
    exact hlo'
  · rw [div_lt_iff₀ hd', show ((t + 1 : Nat) : Int) - 1 - s + 1 = (t + 1 : Nat) - s by
        push_cast; ring,
      zpow_sub₀ (by norm_num), zpow_natCast, zpow_natCast, div_mul_eq_mul_div,
      lt_div_iff₀ (by positivity)]
    exact hhi'

theorem roundDiv_nearest (hd : 0 < d) : NearestMultiple (n / d) 1 (roundDiv n d) := by
  have hd' : (0 : ℚ) < d := Nat.cast_pos.mpr hd
  obtain ⟨hlo, hhi, hodd⟩ := roundDiv_spec (n := n) hd
  generalize roundDiv n d = m at hlo hhi hodd
  -- distances in units of `d`
  have habs : |(n / d : ℚ) - (m : ℤ) * 1| = |(2 * n - 2 * (m * d) : ℚ)| / (2 * d) := by
    have hpos : (0 : ℚ) < 2 * d := by linarith
    have hinside : (n / d : ℚ) - (m : ℤ) * 1 = (2 * n - 2 * (m * d)) / (2 * d) := by
      rw [Int.cast_natCast]
      field_simp
    rw [hinside, abs_div, abs_of_pos hpos]
  have hhalf (y : ℚ) : y / (2 * d) ≤ 1 / 2 ↔ y ≤ d := by
    rw [div_le_div_iff₀ (by linarith) two_pos]
    constructor <;> intro h <;> linarith
  refine ⟨?_, fun htie => ?_⟩
  · rw [habs, hhalf, abs_le]
    have hlo' : (2 * (m * d) : ℚ) ≤ 2 * n + d := by exact_mod_cast hlo
    have hhi' : (2 * n : ℚ) ≤ 2 * (m * d) + d := by exact_mod_cast hhi
    constructor <;> linarith
  · obtain heven | hodd' := Nat.mod_two_eq_zero_or_one m
    · exact_mod_cast Nat.even_iff.mpr heven
    · obtain ⟨hlo, hhi⟩ := hodd hodd'
      have hlo' : (2 * (m * d) : ℚ) < 2 * n + d := by exact_mod_cast hlo
      have hhi' : (2 * n : ℚ) < 2 * (m * d) + d := by exact_mod_cast hhi
      have hlt : |(2 * n - 2 * (m * d) : ℚ)| < d := abs_lt.mpr ⟨by linarith, by linarith⟩
      rw [habs, div_eq_div_iff (by linarith) two_ne_zero] at htie
      linarith

theorem roundAt_nearest (hd : 0 < d) (j : Int) :
    NearestMultiple (n / d) (10 ^ j) (roundAt n d j).digits := by
  have hd' : (d : ℚ) ≠ 0 := Nat.cast_ne_zero.mpr hd.ne'
  have hdown : (tenDown j : ℚ) ≠ 0 := Nat.cast_ne_zero.mpr (tenDown_pos j).ne'
  have hten : (0 : ℚ) < 10 ^ j := zpow_pos (by norm_num) j
  have hup : 0 < tenUp j := Nat.pow_pos (by decide)
  have hquot : ((n * tenDown j : Nat) : ℚ) / (d * tenUp j : Nat) * 10 ^ j = n / d := by
    push_cast
    rw [tenUp_eq]
    field_simp
  have h := (roundDiv_nearest (n := n * tenDown j) (Nat.mul_pos hd hup)).scale hten
  rw [hquot, one_mul] at h
  exact h

/-! ## The two roundings -/

/-- `r` is `q` rounded to `count` significant digits, a tie going to the even digit -/
def Rounded (count : Nat) (q r : ℚ) : Prop :=
  ∃ m : ℤ, r = m * 10 ^ (Int.log 10 |q| + 1 - count) ∧
    NearestMultiple q (10 ^ (Int.log 10 |q| + 1 - count)) m

theorem lastPlace_eq (leading : Int) (hcount : 0 < count) :
    lastPlace leading count = leading + 1 - count := by
  unfold lastPlace
  omega

/-- a power of ten that is `k` places above the unit -/
theorem ten_zpow_split (j : Int) (k : Nat) : (10 : ℚ) ^ (j + k) = (10 ^ k : Nat) * 10 ^ j := by
  rw [add_comm, zpow_add₀ (by norm_num), zpow_natCast]
  push_cast
  rfl

/-- the digits of a first rounding are `count` many, or they are those of the next power of ten -/
theorem roundSignificant_digits (hn : 0 < n) (hd : 0 < d) (hcount : 0 < count) :
    10 ^ (count - 1) ≤ (roundSignificant n d count).digits ∧
      (roundSignificant n d count).digits ≤ 10 ^ count := by
  have hq : (0 : ℚ) < n / d := div_pos (Nat.cast_pos.mpr hn) (Nat.cast_pos.mpr hd)
  have hlo := log_le hq
  have hhi := (lt_log (n / d : ℚ)).le
  have hnearest : NearestMultiple (n / d) _ (roundSignificant n d count).digits :=
    roundAt_nearest hd (lastPlace (magnitude n d) count)
  rw [lastPlace_eq _ hcount, magnitude_eq hn hd] at hnearest
  generalize Int.log 10 (n / d : ℚ) = k at hlo hhi hnearest
  have hu : (0 : ℚ) < 10 ^ (k + 1 - count) := zpow_pos (by norm_num) _
  rw [show k = k + 1 - count + (count - 1 : Nat) by omega, ten_zpow_split] at hlo
  rw [show k + 1 = k + 1 - count + (count : Nat) by omega, ten_zpow_split] at hhi
  constructor
  · exact_mod_cast hnearest.le_of_mul_le (a := (10 ^ (count - 1) : Nat)) hu (by exact_mod_cast hlo)
  · exact_mod_cast hnearest.ge_of_le_mul (a := (10 ^ count : Nat)) hu (by exact_mod_cast hhi)

theorem roundSignificant_rounded (hn : 0 < n) (hd : 0 < d) (hcount : 0 < count) :
    Rounded count (n / d) (roundSignificant n d count).value := by
  have hq : (0 : ℚ) < n / d := div_pos (Nat.cast_pos.mpr hn) (Nat.cast_pos.mpr hd)
  have hplace : Int.log 10 |(n / d : ℚ)| + 1 - count = lastPlace (magnitude n d) count := by
    rw [lastPlace_eq _ hcount, magnitude_eq hn hd, abs_of_pos hq]
  refine ⟨(roundSignificant n d count).digits, ?_, ?_⟩ <;> rw [hplace]
  · rw [Int.cast_natCast]
    rfl
  · exact roundAt_nearest hd _

/-- where the first rounding carries, its leading digit is one place above that of the number -/
theorem leading_roundSignificant (hn : 0 < n) (hd : 0 < d) (hcount : 0 < count) :
    (roundSignificant n d count).leading = magnitude n d ∨
      (roundSignificant n d count).leading = magnitude n d + 1 ∧
        (roundSignificant n d count).digits = 10 ^ count := by
  obtain ⟨hlo, hhi⟩ := roundSignificant_digits hn hd hcount
  have hleading : (roundSignificant n d count).leading =
      Nat.log 10 (roundSignificant n d count).digits + lastPlace (magnitude n d) count :=
    Decimal.leading_eq _
  rw [hleading, lastPlace_eq _ hcount]
  generalize (roundSignificant n d count).digits = m at hlo hhi
  obtain hlt | rfl := hhi.lt_or_eq
  · left
    have hlog : Nat.log 10 m = count - 1 := by
      refine Nat.log_eq_of_pow_le_of_lt_pow hlo ?_
      rwa [Nat.sub_add_cancel hcount]
    omega
  · right
    rw [Nat.log_pow (by decide)]
    exact ⟨by omega, rfl⟩

/-- The second rounding comes to the same number as the first.  Only where the first one carried is
it made at another place, and the power of ten is then nearest at either. -/
theorem roundAt_leading (hn : 0 < n) (hd : 0 < d) (hcount : 0 < count) :
    (roundAt n d (lastPlace (roundSignificant n d count).leading count)).value =
      (roundSignificant n d count).value := by
  obtain hsame | ⟨hcarry, hdigits⟩ := leading_roundSignificant hn hd hcount
  · rw [hsame]
    rfl
  · obtain ⟨j, hj⟩ : ∃ j, lastPlace (magnitude n d) count = j := ⟨_, rfl⟩
    have hplace : lastPlace (magnitude n d + 1) count = j + 1 := by
      rw [← hj]
      unfold lastPlace
      omega
    have hu : (0 : ℚ) < 10 ^ j := zpow_pos (by norm_num) j
    have hten : (10 : ℚ) ^ (j + 1) = 10 * 10 ^ j := by
      rw [zpow_add_one₀ (by norm_num), mul_comm]
    have hpower : ((10 ^ (count - 1) : Nat) : ℚ) * 10 ^ (j + 1) = (10 ^ count : Nat) * 10 ^ j := by
      rw [hten, ← mul_assoc]
      congr 1
      exact_mod_cast pow_sub_one_mul hcount.ne' 10
    have hfirst : NearestMultiple (n / d) (10 ^ j) (10 ^ count : Nat) := by
      rw [← hdigits, ← hj]
      exact roundAt_nearest hd _
    have hnear : |(n / d : ℚ) - (10 ^ (count - 1) : Nat) * 10 ^ (j + 1)| < 10 ^ (j + 1) / 2 := by
      have := hfirst.near
      rw [Int.cast_natCast] at this
      rw [hpower, hten]
      linarith
    have hsecond := (roundAt_nearest (n := n) hd (j + 1)).eq_of_near
      (a := (10 ^ (count - 1) : Nat)) (hten ▸ by linarith) (by exact_mod_cast hnear)
    have hdigits' : (roundAt n d (j + 1)).digits = 10 ^ (count - 1) := by exact_mod_cast hsecond
    have hvalue : (roundSignificant n d count).value = (10 ^ count : Nat) * 10 ^ j := by
      show (_ : ℚ) * 10 ^ lastPlace (magnitude n d) count = _
      rw [hdigits, hj]
    rw [hcarry, hplace, hvalue, ← hpower, ← hdigits']
    rfl

/-! ## The text of a double -/

/-- `q` with a minus or without one -/
def signed (negative : Bool) (q : ℚ) : ℚ := if negative then -q else q

/-- the number that a literal writes, not yet rounded to a double -/
def Literal.exact (l : Literal) : ℚ := signed l.negative (l.digits * 10 ^ l.exponent)

/-- a minus or none -/
def minus (negative : Bool) : List Char := (if negative then "-" else "").toList

/-- tidy digits -/
def PositionalForm (cs : List Char) : Prop :=
  ∃ negative ws body, cs = minus negative ++ body ∧ Tidy ws body

/-- tidy digits with one before the point, and an exponent of a sign and two digits at least -/
def ScientificForm (cs : List Char) : Prop :=
  ∃ negative first body mark es, cs = minus negative ++ (body ++ 'e' :: mark :: es) ∧
    Tidy [first] body ∧ (mark = '+' ∨ mark = '-') ∧ 2 ≤ es.length ∧ ∀ c ∈ es, c.isDigit = true

theorem not_scientificForm {cs : List Char} (h : PositionalForm cs) : ¬ ScientificForm cs := by
  rintro ⟨negative, first, body, mark, es, rfl, -⟩
  obtain ⟨negative', ws, body', heq, htidy⟩ := h
  have he : 'e' ∈ minus negative' ++ body' := by
    rw [← heq]
    simp
  obtain he | he := List.mem_append.mp he
  · cases negative' <;> simp [minus] at he
  · exact htidy.ne_e he

theorem positionalForm_positional {d : Decimal} (h : d.digits % 10 ≠ 0) (negative : Bool) :
    PositionalForm (minus negative ++ d.positional.toList) := by
  obtain ⟨ws, htidy⟩ := Decimal.tidy_positional h
  exact ⟨negative, ws, _, rfl, htidy⟩

theorem scientificForm_scientific {d : Decimal} (h : d.digits % 10 ≠ 0) (negative : Bool) :
    ScientificForm (minus negative ++ d.scientific.toList) := by
  obtain ⟨first, htidy⟩ := Decimal.tidy_mantissa h
  obtain ⟨es, htext, hlength, hdigit, -⟩ := Decimal.exponentText_shape d.leading
  refine ⟨negative, first, _, if d.leading < 0 then '-' else '+', es, ?_, htidy, ?_, hlength,
    hdigit⟩
  · rw [Decimal.scientific_toList, htext]
  · split
    · exact .inr rfl
    · exact .inl rfl

theorem abs_signed (negative : Bool) {q : ℚ} (h : 0 < q) : |signed negative q| = q := by
  cases negative
  · exact abs_of_pos h
  · exact (abs_neg q).trans (abs_of_pos h)

theorem Rounded.signed {q r : ℚ} (h : Rounded count q r) (negative : Bool) :
    Rounded count (signed negative q) (signed negative r) := by
  cases negative with
  | false => exact h
  | true =>
    obtain ⟨m, hr, hnearest⟩ := h
    refine ⟨-m, ?_, ?_⟩
    · show -r = _
      rw [hr, show |Number.signed true q| = |q| from abs_neg q]
      push_cast
      ring
    · rw [show |Number.signed true q| = |q| from abs_neg q]
      exact hnearest.neg

/-- what either form of a number without trailing zeros says -/
theorem read?_forms (d : Decimal) (negative : Bool) :
    (∃ l, Literal.read? (minus negative ++ d.positional.toList) = some l ∧
      l.exact = signed negative d.value) ∧
    ∃ l, Literal.read? (minus negative ++ d.scientific.toList) = some l ∧
      l.exact = signed negative d.value := by
  refine ⟨⟨_, (written_positional d).read? negative, ?_⟩, ⟨_, d.read?_scientific negative, rfl⟩⟩
  unfold Literal.exact
  dsimp only
  rw [positional_value d]
  rfl

theorem toSigned?_getD {m : Nat} (h : m - 1 ≤ placesLimit) (z : Int) : (toSigned? m).getD z = m := by
  have hle : m ≤ maxSigned := by
    rw [placesLimit] at h
    rw [maxSigned]
    omega
  rw [toSigned?, if_pos hle]
  rfl

/-- The form of a text, and the places of its digits.  As many digits as there is a text for are no
more than signed words can count. -/
theorem quotientText?_eq_some (hcount : 0 < count) {t : String}
    (h : quotientText? n d count = some t) :
    (-4 ≤ (roundSignificant n d count).leading ∧ (roundSignificant n d count).leading < count ∧
      t = (roundAt n d (lastPlace (roundSignificant n d count).leading count)).trim.positional) ∨
    (((roundSignificant n d count).leading < -4 ∨ count ≤ (roundSignificant n d count).leading) ∧
      t = (roundSignificant n d count).trim.scientific) := by
  unfold quotientText? at h
  dsimp only at h
  generalize roundSignificant n d count = r at h ⊢
  by_cases hlimit : placesLimit < count - 1
  · rw [if_pos hlimit] at h
    cases h
  · rw [if_neg hlimit] at h
    have hform : isPositional count r.leading = true ↔ -4 ≤ r.leading ∧ r.leading < count := by
      rw [isPositional, toSigned?_getD (not_lt.mp hlimit), Bool.and_eq_true, decide_eq_true_eq,
        decide_eq_true_eq]
    by_cases hpositional : isPositional count r.leading = true
    · obtain ⟨hlow, hhigh⟩ := hform.mp hpositional
      have hplace : -(decimals count r.leading : Int) = lastPlace r.leading count := by
        rw [decimals, toSigned?_getD (not_lt.mp hlimit), lastPlace_eq _ hcount]
        omega
      rw [if_pos hpositional, hplace] at h
      split at h
      · cases h
      · exact .inl ⟨hlow, hhigh, (Option.some.inj h).symm⟩
    · rw [if_neg hpositional] at h
      refine .inr ⟨?_, (Option.some.inj h).symm⟩
      rw [hform] at hpositional
      omega

theorem quotientText?_eq_none (n d : Nat) (h : placesLimit < count - 1) :
    quotientText? n d count = none :=
  if_pos h

theorem significant?_eq {x : Float} (hx : x.isFinite = true)
    (hne : (Binary.ofFloat x).mantissa ≠ 0) (count : Nat) :
    ∃ n d : Nat, 0 < n ∧ 0 < d ∧ value x = signed (signBit x) (n / d) ∧
      significant? x count =
        (quotientText? n d (max count 1)).map ((if signBit x then "-" else "") ++ ·) := by
  refine ⟨(Binary.ofFloat x).mantissa * twoUp (Binary.ofFloat x).exponent,
    twoDown (Binary.ofFloat x).exponent, Nat.mul_pos (Nat.pos_of_ne_zero hne) (twoUp_pos _),
    twoDown_pos _, ?_, ?_⟩
  · have hdown : (twoDown (Binary.ofFloat x).exponent : ℚ) ≠ 0 :=
      Nat.cast_ne_zero.mpr (twoDown_pos _).ne'
    have hquot : absValue x =
        ((Binary.ofFloat x).mantissa * twoUp (Binary.ofFloat x).exponent : Nat) /
          (twoDown (Binary.ofFloat x).exponent : ℚ) := by
      rw [absValue, Nat.cast_mul, twoUp_eq]
      field_simp
    rw [← hquot]
    rfl
  · have hsign : (Binary.ofFloat x).negative = signBit x := by
      unfold Binary.ofFloat
      dsimp only
      split <;> rfl
    unfold significant?
    rw [if_pos hx, if_neg hne, hsign]

theorem mantissa_ne_zero {x : Float} (hx : x.isFinite = true) (hzero : (x == 0) = false) :
    (Binary.ofFloat x).mantissa ≠ 0 := by
  intro hm
  have hkey : orderKey x = orderKey 0 := by
    rw [orderKey_eq, magnitudeBits_eq_zero hm]
    cases signBit x <;> rfl
  rw [(beq_iff_orderKey (isNaN_eq_false hx) (isNaN_eq_false isFinite_zero)).mpr hkey] at hzero
  cases hzero

/-- The text of a finite double other than zero.  There is one for up to 65532 digits, and none for
65537 or more; in between it depends on how many places behind the point the digits take.  Read as a
decimal number it is the value of the double rounded to `count` significant digits, at least one.
It has no zero at the end behind a point and no point at its end, and it is in the scientific form
exactly if the leading digit of the rounded number stands below the fourth place behind the point or
above the `count`-th before it. -/
theorem significant_rounded {x : Float} (hx : x.isFinite = true) (hzero : (x == 0) = false)
    (count : Nat) :
    (count ≤ 65532 → ∃ t, significant? x count = some t) ∧
    (65537 ≤ count → significant? x count = none) ∧
    ∀ t, significant? x count = some t →
      ∃ r l, Rounded (max count 1) (value x) r ∧ Literal.read? t.toList = some l ∧ l.exact = r ∧
        (PositionalForm t.toList ∨ ScientificForm t.toList) ∧
        (ScientificForm t.toList ↔ Int.log 10 |r| < -4 ∨ (max count 1 : Nat) ≤ Int.log 10 |r|) := by
  obtain ⟨n, d, hn, hd, hvalue, heq⟩ := significant?_eq hx (mantissa_ne_zero hx hzero) count
  refine ⟨fun h => ?_, fun h => ?_, fun t ht => ?_⟩
  · have hsome : (significant? x count).isSome = true := by
      refine significant?_isSome x ?_
      rw [placesLimit]
      omega
    exact Option.isSome_iff_exists.mp hsome
  · rw [heq, quotientText?_eq_none n d, Option.map_none]
    rw [placesLimit]
    omega
  · rw [heq] at ht
    obtain ⟨body, hbody, rfl⟩ := Option.map_eq_some_iff.mp ht
    have hcount : 0 < max count 1 := by omega
    generalize max count 1 = k at hcount hbody
    have hform := quotientText?_eq_some hcount hbody
    have hrounded := roundSignificant_rounded hn hd hcount
    have hdigits : 0 < (roundSignificant n d k).digits :=
      (Nat.pow_pos (by decide)).trans_le (roundSignificant_digits hn hd hcount).1
    have hsecond := roundAt_leading hn hd hcount
    generalize roundSignificant n d k = first at hrounded hdigits hsecond hform
    generalize roundAt n d (lastPlace first.leading k) = second at hsecond hform
    have hpos := Decimal.value_pos_iff.mpr hdigits
    have hdigits' : 0 < second.digits := Decimal.value_pos_iff.mp (hsecond ▸ hpos)
    rw [hvalue, String.toList_append]
    refine ⟨signed (signBit x) first.value, ?_⟩
    rw [abs_signed _ hpos, Decimal.log_value hdigits]
    obtain ⟨hlow, hhigh, rfl⟩ | ⟨hout, rfl⟩ := hform
    · have hplain := positionalForm_positional (Decimal.trim_digits hdigits') (signBit x)
      obtain ⟨l, hl, hexact⟩ := (read?_forms second.trim (signBit x)).1
      rw [Decimal.trim_value hdigits', hsecond] at hexact
      refine ⟨l, hrounded.signed _, hl, hexact, .inl hplain,
        iff_of_false (not_scientificForm hplain) ?_⟩
      omega
    · have hplain := scientificForm_scientific (Decimal.trim_digits hdigits) (signBit x)
      obtain ⟨l, hl, hexact⟩ := (read?_forms first.trim (signBit x)).2
      rw [Decimal.trim_value hdigits] at hexact
      exact ⟨l, hrounded.signed _, hl, hexact, .inr hplain, iff_of_true hplain hout⟩

/-- the first rounding carries, so that the second is made at whole numbers -/
theorem significant_carry : significant? 9.96 2 = some "10" ∧ Rounded 2 (value 9.96) 10 := by
  have htext : significant? 9.96 2 = some "10" := by decide +kernel
  obtain ⟨-, -, hall⟩ := significant_rounded (x := 9.96) (by decide +kernel) (by decide +kernel) 2
  obtain ⟨r, l, hrounded, hread, hexact, -⟩ := hall "10" htext
  rw [show Literal.read? "10".toList = some ⟨false, 10, 0⟩ by decide +kernel] at hread
  cases hread
  have hten : Literal.exact ⟨false, 10, 0⟩ = 10 := by norm_num [Literal.exact, signed]
  rw [← hexact, hten] at hrounded
  exact ⟨htext, hrounded⟩

/-- a number of two digits has no text with so many of them -/
theorem significant_too_long :
    (1.5 : Float).isFinite = true ∧ ((1.5 : Float) == 0) = false ∧ significant? 1.5 65537 = none :=
  ⟨by decide, by decide, by decide +kernel⟩

end ChartLisp.Number
