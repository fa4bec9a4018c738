import ChartLisp.Proofs.Number.ReadBack
import Mathlib.Data.Int.Log

/-!
# Decimal numbers and their texts

* `Decimal.value`                     the rational number that a decimal number is
* `digitCount_eq`, `Decimal.log_value`   its leading digit is at its decimal logarithm
* `Decimal.trim_value`, `Decimal.trim_digits`   without trailing zeros it is the same number
* `Tidy`                              digits with no zero at the end behind a point
* `Decimal.tidy_positional`, `Decimal.tidy_mantissa`   both forms of a trimmed number are tidy
* `Decimal.read?_scientific`          the scientific form is the literal of the number
-/

namespace ChartLisp.Number

/-! ## Digits -/

theorem digitCount_eq (n : Nat) : digitCount n = Nat.log 10 n + 1 := by
  have hpos : 0 < digitCount n := Nat.length_toDigits_pos
  have hcount (k : Nat) (hk : 0 < k) : digitCount n ≤ k ↔ n < 10 ^ k :=
    Nat.length_toDigits_le_iff (by decide) hk
  have hhi : digitCount n ≤ Nat.log 10 n + 1 :=
    (hcount _ (Nat.succ_pos _)).mpr (Nat.lt_pow_succ_log_self (by decide) n)
  have hlo : Nat.log 10 n < digitCount n :=
    Nat.log_lt_of_lt_pow' hpos.ne' ((hcount _ hpos).mp le_rfl)
  omega

/-- the last digit that is written -/
theorem toDigits_last (n : Nat) : ∃ ds, Nat.toDigits 10 n = ds ++ [Nat.digitChar (n % 10)] ∧
    (10 ≤ n → ds = Nat.toDigits 10 (n / 10)) := by
  by_cases hn : n < 10
  · refine ⟨[], ?_, fun h => absurd hn (not_lt.mpr h)⟩
    rw [Nat.toDigits_of_lt_base hn, Nat.mod_eq_of_lt hn]
    rfl
  · exact ⟨_, Nat.toDigits_of_base_le (by decide) (not_lt.mp hn), fun _ => rfl⟩

namespace Decimal

theorem trailingZeros_of_ne {n : Nat} (h : n % 10 ≠ 0) : trailingZeros n = 0 := by
  obtain ⟨ds, hds, -⟩ := toDigits_last n
  unfold trailingZeros
  rw [hds, List.reverse_append]
  simp [h]

theorem trailingZeros_of_eq {n : Nat} (hn : 0 < n) (h : n % 10 = 0) :
    trailingZeros n = trailingZeros (n / 10) + 1 := by
  obtain ⟨ds, hds, hrest⟩ := toDigits_last n
  unfold trailingZeros
  rw [hds, hrest (by omega), List.reverse_append]
  simp [h]

/-- the zeros can be divided away, and no other one follows -/
theorem trailingZeros_spec {n : Nat} (hn : 0 < n) :
    10 ^ trailingZeros n ∣ n ∧ n / 10 ^ trailingZeros n % 10 ≠ 0 := by
  induction n using Nat.strongRecOn with
  | ind n ih =>
    by_cases h : n % 10 = 0
    · obtain ⟨hdvd, hne⟩ := ih (n / 10) (by omega) (by omega)
      rw [trailingZeros_of_eq hn h, Nat.pow_succ', ← Nat.div_div_eq_div_mul]
      exact ⟨Nat.mul_dvd_of_dvd_div (Nat.dvd_of_mod_eq_zero h) hdvd, hne⟩
    · rw [trailingZeros_of_ne h]
      simpa using h

/-! ## Values -/

def value (d : Decimal) : ℚ := d.digits * 10 ^ d.exponent

variable {d : Decimal}

theorem value_pos_iff : 0 < d.value ↔ 0 < d.digits := by
  have hu : (0 : ℚ) < 10 ^ d.exponent := zpow_pos (by norm_num) _
  rw [value, mul_pos_iff_of_pos_right hu, Nat.cast_pos]

theorem leading_eq (d : Decimal) : d.leading = Nat.log 10 d.digits + d.exponent := by
  unfold leading
  rw [digitCount_eq]
  push_cast
  ring

theorem trim_digits (h : 0 < d.digits) : d.trim.digits % 10 ≠ 0 := (trailingZeros_spec h).2

theorem trim_value (h : 0 < d.digits) : d.trim.value = d.value := by
  obtain ⟨m, hm⟩ := (trailingZeros_spec h).1
  have hpos : 0 < 10 ^ trailingZeros d.digits := Nat.pow_pos (by decide)
  have hdigits : d.trim.digits = m := by
    show d.digits / 10 ^ trailingZeros d.digits = m
    rw [Nat.div_eq_of_eq_mul_right hpos hm]
  have hexponent : d.trim.exponent = d.exponent + trailingZeros d.digits := rfl
  unfold value
  rw [hdigits, hexponent, zpow_add₀ (by norm_num), zpow_natCast]
  nth_rewrite 2 [hm]
  push_cast
  ring

end Decimal

/-- the power of ten below a number is the only one -/
theorem log_eq {q : ℚ} {k : Int} (hlo : (10 : ℚ) ^ k ≤ q) (hhi : q < 10 ^ (k + 1)) :
    Int.log 10 q = k := by
  have hq : 0 < q := (zpow_pos (by norm_num) k).trans_le hlo
  have h1 : k ≤ Int.log 10 q := (Int.zpow_le_iff_le_log (by decide) hq).mp (by exact_mod_cast hlo)
  have h2 : Int.log 10 q < k + 1 :=
    (Int.lt_zpow_iff_log_lt (by decide) hq).mp (by exact_mod_cast hhi)
  omega

theorem log_le {q : ℚ} (hq : 0 < q) : (10 : ℚ) ^ Int.log 10 q ≤ q := by
  exact_mod_cast Int.zpow_log_le_self (R := ℚ) (b := 10) (by decide) hq

theorem lt_log (q : ℚ) : q < (10 : ℚ) ^ (Int.log 10 q + 1) := by
  exact_mod_cast Int.lt_zpow_succ_log_self (R := ℚ) (b := 10) (by decide) q

theorem Decimal.log_value {d : Decimal} (h : 0 < d.digits) : Int.log 10 d.value = d.leading := by
  have hu : (0 : ℚ) < 10 ^ d.exponent := zpow_pos (by norm_num) _
  have hlo : (10 ^ Nat.log 10 d.digits : ℚ) ≤ d.digits := by
    exact_mod_cast Nat.pow_log_le_self 10 h.ne'
  have hhi : (d.digits : ℚ) < 10 ^ (Nat.log 10 d.digits + 1) := by
    exact_mod_cast Nat.lt_pow_succ_log_self (by decide) d.digits
  rw [leading_eq]
  refine log_eq ?_ ?_
  · rw [zpow_add₀ (by norm_num), zpow_natCast]
    exact mul_le_mul_of_nonneg_right hlo hu.le
  · rw [add_right_comm, zpow_add₀ (by norm_num)]
    exact_mod_cast mul_lt_mul_of_pos_right hhi hu

/-! ## Tidy texts -/

/-- the digits `ws`, and behind a point, if there is one, digits of which the last is not zero -/
inductive Tidy (ws : List Char) : List Char → Prop where
  | whole (hne : ws ≠ []) (hws : ∀ c ∈ ws, c.isDigit = true) : Tidy ws ws
  | pointed {fs : List Char} {last : Char} (hne : ws ≠ []) (hws : ∀ c ∈ ws, c.isDigit = true)
      (hfs : ∀ c ∈ fs, c.isDigit = true) (hlast : last.isDigit = true ∧ last ≠ '0') :
      Tidy ws (ws ++ '.' :: (fs ++ [last]))

/-- no letter stands in it -/
theorem Tidy.ne_e {ws cs : List Char} (h : Tidy ws cs) : 'e' ∉ cs := by
  intro he
  cases h with
  | whole _ hws => exact absurd (hws 'e' he) (by decide)
  | pointed _ hws hfs hlast =>
    simp only [List.mem_append, List.mem_cons, List.not_mem_nil, or_false] at he
    obtain he | he | he | rfl := he
    · exact absurd (hws 'e' he) (by decide)
    · cases he
    · exact absurd (hfs 'e' he) (by decide)
    · exact absurd hlast.1 (by decide)

theorem isDigit_and_ne_zero {n : Nat} (h : n % 10 ≠ 0) :
    (Nat.digitChar (n % 10)).isDigit = true ∧ Nat.digitChar (n % 10) ≠ '0' := by
  refine ⟨?_, fun hzero => h (Nat.digitChar_eq_zero.mp hzero)⟩
  rw [Nat.isDigit_digitChar, decide_eq_true_iff]
  omega

/-- the last digit of a number that is no multiple of ten stays the last one behind a point -/
theorem tidy_pointed {n : Nat} (hn : n % 10 ≠ 0) (places : Nat) (hplaces : 0 < places) :
    ∃ ws, ws.length = max 1 (digitCount n - places) ∧
      Tidy ws (Decimal.pointed (Nat.toDigits 10 n) places) := by
  obtain ⟨ws, fs, hpointed, hfs, hws, happend⟩ := pointed_shape (Nat.toDigits 10 n) places
  obtain ⟨ds, hds, -⟩ := toDigits_last n
  have hdigit : ∀ c ∈ ws ++ fs, c.isDigit = true := by
    intro c hc
    rw [happend, List.mem_append] at hc
    exact hc.elim isDigit_of_mem_replicate isDigit_of_mem_toDigits
  have hlast : fs.getLast? = some (Nat.digitChar (n % 10)) := by
    have h := congrArg List.getLast? happend
    have hne : fs ≠ [] := by
      rw [← List.length_pos_iff_ne_nil]
      omega
    rw [List.getLast?_append_of_ne_nil ws hne, hds, ← List.append_assoc, List.getLast?_concat] at h
    exact h
  obtain ⟨gs, rfl⟩ := List.getLast?_eq_some_iff.mp hlast
  have hne : ws ≠ [] := by
    rw [← List.length_pos_iff_ne_nil]
    omega
  refine ⟨ws, hws, ?_⟩
  rw [hpointed]
  exact .pointed hne (fun c hc => hdigit c (List.mem_append_left _ hc))
    (fun c hc => hdigit c (List.mem_append_right _ (List.mem_append_left _ hc)))
    (isDigit_and_ne_zero hn)

/-! ## The two forms -/

namespace Decimal

variable {d : Decimal}

theorem tidy_positional (h : d.digits % 10 ≠ 0) : ∃ ws, Tidy ws d.positional.toList := by
  unfold positional
  dsimp only
  split
  · rw [String.toList_ofList]
    refine ⟨_, .whole (by simp [Nat.toDigits_ne_nil]) fun c hc => ?_⟩
    exact (List.mem_append.mp hc).elim isDigit_of_mem_toDigits isDigit_of_mem_replicate
  · rename_i hexp
    obtain ⟨ws, -, htidy⟩ := tidy_pointed h (-d.exponent).toNat (by omega)
    rw [String.toList_ofList]
    exact ⟨ws, htidy⟩

/-- the digits of the scientific form, with the point behind the first one -/
def mantissa (d : Decimal) : List Char :=
  if (Nat.toDigits 10 d.digits).length = 1 then Nat.toDigits 10 d.digits
  else pointed (Nat.toDigits 10 d.digits) ((Nat.toDigits 10 d.digits).length - 1)

theorem scientific_toList (d : Decimal) :
    d.scientific.toList = d.mantissa ++ 'e' :: (exponentText d.leading).toList := by
  unfold scientific mantissa
  simp [String.toList_append]

theorem tidy_mantissa (h : d.digits % 10 ≠ 0) : ∃ c, Tidy [c] d.mantissa := by
  have hpos : 0 < digitCount d.digits := Nat.length_toDigits_pos
  unfold mantissa
  split
  · rename_i hone
    obtain ⟨c, hc⟩ := List.length_eq_one_iff.mp hone
    refine ⟨c, ?_⟩
    rw [hc]
    refine .whole (List.cons_ne_nil _ _) fun c' hc' => ?_
    rw [← hc] at hc'
    exact isDigit_of_mem_toDigits hc'
  · rename_i hmore
    replace hmore : digitCount d.digits ≠ 1 := hmore
    obtain ⟨ws, hws, htidy⟩ := tidy_pointed h (digitCount d.digits - 1) (by omega)
    obtain ⟨c, rfl⟩ := List.length_eq_one_iff.mp (hws.trans (by omega))
    exact ⟨c, htidy⟩

theorem written_mantissa (d : Decimal) :
    Written d.mantissa d.digits (-(digitCount d.digits - 1 : Nat)) := by
  have hdigit : ∀ c ∈ Nat.toDigits 10 d.digits, c.isDigit = true := fun c => isDigit_of_mem_toDigits
  unfold mantissa digitCount
  split
  · rename_i hone
    have h := Written.whole Nat.toDigits_ne_nil hdigit
    rw [Literal.ofDigits_toDigits] at h
    rw [hone]
    exact h
  · have h := written_pointed hdigit ((Nat.toDigits 10 d.digits).length - 1)
    rw [Literal.ofDigits_toDigits] at h
    exact h

/-- the sign and the digits of an exponent, at least two of them -/
theorem exponentText_shape (k : Int) :
    ∃ ds, (exponentText k).toList = (if k < 0 then '-' else '+') :: ds ∧ 2 ≤ ds.length ∧
      (∀ c ∈ ds, c.isDigit = true) ∧ Literal.ofDigits ds = k.natAbs := by
  unfold exponentText
  refine ⟨_, String.toList_ofList, ?_, fun c hc => ?_, ?_⟩
  · rw [List.length_append, List.length_replicate]
    omega
  · exact (List.mem_append.mp hc).elim isDigit_of_mem_replicate isDigit_of_mem_toDigits
  · rw [Literal.ofDigits_zeros_append, Literal.ofDigits_toDigits]

theorem readExponent?_exponentText (k : Int) :
    Literal.readExponent? ('e' :: (exponentText k).toList) = some k := by
  obtain ⟨ds, htext, hlength, hdigit, hvalue⟩ := exponentText_shape k
  have hne : ds ≠ [] := by
    rintro rfl
    cases hlength
  have hdigits : ds ≠ [] ∧ ds.all Char.isDigit = true := ⟨hne, List.all_eq_true.mpr hdigit⟩
  rw [htext, Literal.readExponent?, if_pos (.inl rfl)]
  by_cases hk : k < 0
  · have hsplit : Literal.splitSign ('-' :: ds) = (true, ds) := rfl
    rw [if_pos hk, hsplit]
    dsimp only
    rw [if_pos hdigits, hvalue, if_pos rfl, Option.some_inj]
    omega
  · have hsplit : Literal.splitSign ('+' :: ds) = (false, ds) := rfl
    rw [if_neg hk, hsplit]
    dsimp only
    rw [if_pos hdigits, hvalue, if_neg Bool.false_ne_true, Option.some_inj]
    omega

theorem read?_scientific (d : Decimal) (negative : Bool) :
    Literal.read? ((if negative then "-" else "").toList ++ d.scientific.toList) =
      some ⟨negative, d.digits, d.exponent⟩ := by
  have hpos : 0 < digitCount d.digits := Nat.length_toDigits_pos
  have hread := d.written_mantissa.read?_followed negative
    ('e' :: (exponentText d.leading).toList) (by simp)
  rw [readExponent?_exponentText, Option.map_some] at hread
  rw [scientific_toList, hread]
  have hexponent : d.leading + -(digitCount d.digits - 1 : Nat) = d.exponent := by
    unfold leading
    omega
  rw [hexponent]

end Decimal

end ChartLisp.Number
