import ChartLisp.Number.Literal
import ChartLisp.Proofs.Number.Bits

/-!
# The text of a number reads back

* `Written cs n x`         `cs` are the digits of `n`, with a point if `x` is negative, for the
                           number `n * 10 ^ x`
* `Written.read?`          such a text is the literal of that number
* `Literal.value_eq`       a literal in the interval of a double has the double as its value
* `read?_text`             the text of a finite double is a literal with the double as its value
* `text_injective`         doubles with the same text are the same, all NaN being one
* `text_shape`             the characters that the texts are made of
-/

namespace ChartLisp.Number

/-! ## Digits with a point -/

inductive Written : List Char → Nat → Int → Prop where
  | whole {ds : List Char} (hne : ds ≠ []) (hds : ∀ c ∈ ds, c.isDigit = true) :
      Written ds (Literal.ofDigits ds) 0
  | pointed {ds fs : List Char} (hne : ds ≠ []) (hds : ∀ c ∈ ds, c.isDigit = true)
      (hfs : ∀ c ∈ fs, c.isDigit = true) :
      Written (ds ++ '.' :: fs) (Literal.ofDigits (ds ++ fs)) (-fs.length)

theorem isDigit_of_mem_toDigits {n : Nat} {c : Char} (h : c ∈ Nat.toDigits 10 n) :
    c.isDigit = true :=
  Nat.isDigit_of_mem_toDigits (by decide) (by decide) h

theorem isDigit_of_mem_replicate {k : Nat} {c : Char} (h : c ∈ List.replicate k '0') :
    c.isDigit = true := by
  rw [List.eq_of_mem_replicate h]
  rfl

theorem Literal.ofDigits_toDigits (n : Nat) : ofDigits (Nat.toDigits 10 n) = n :=
  Nat.ofDigitChars_ten_toDigits

theorem Literal.ofDigits_append_zeros (ds : List Char) (k : Nat) :
    ofDigits (ds ++ List.replicate k '0') = ofDigits ds * Nat.pow 10 k := by
  show Nat.ofDigitChars 10 (ds ++ List.replicate k '0') 0 = Nat.ofDigitChars 10 ds 0 * 10 ^ k
  rw [Nat.ofDigitChars_append, Nat.ofDigitChars_replicate_zero, Nat.mul_comm]

theorem Literal.ofDigits_zeros_append (ds : List Char) (k : Nat) :
    ofDigits (List.replicate k '0' ++ ds) = ofDigits ds := by
  show Nat.ofDigitChars 10 (List.replicate k '0' ++ ds) 0 = Nat.ofDigitChars 10 ds 0
  rw [Nat.ofDigitChars_append, Nat.ofDigitChars_replicate_zero, Nat.mul_zero]

/-- the digits, with zeros before them if there are too few, and a point between two of them -/
theorem pointed_shape (ds : List Char) (places : Nat) :
    ∃ ws fs, Decimal.pointed ds places = ws ++ '.' :: fs ∧ fs.length = places ∧
      ws.length = max 1 (ds.length - places) ∧
      ws ++ fs = List.replicate (places + 1 - ds.length) '0' ++ ds := by
  unfold Decimal.pointed
  dsimp only
  have hlength : (List.replicate (places + 1 - ds.length) '0' ++ ds).length =
      places + max 1 (ds.length - places) := by
    rw [List.length_append, List.length_replicate]
    omega
  refine ⟨_, _, rfl, ?_, ?_, List.take_append_drop _ _⟩
  · rw [List.length_drop]
    omega
  · rw [List.length_take]
    omega

theorem written_pointed {ds : List Char} (hds : ∀ c ∈ ds, c.isDigit = true) (places : Nat) :
    Written (Decimal.pointed ds places) (Literal.ofDigits ds) (-places) := by
  obtain ⟨ws, fs, hpointed, hfs, hws, happend⟩ := pointed_shape ds places
  have hdigit : ∀ c ∈ ws ++ fs, c.isDigit = true := by
    intro c hc
    rw [happend, List.mem_append] at hc
    exact hc.elim isDigit_of_mem_replicate (hds c)
  have hne : ws ≠ [] := by
    rw [← List.length_pos_iff_ne_nil]
    omega
  have h := Written.pointed hne (fun c hc => hdigit c (List.mem_append_left fs hc))
    fun c hc => hdigit c (List.mem_append_right ws hc)
  rw [happend, Literal.ofDigits_zeros_append, hfs] at h
  rw [hpointed]
  exact h

theorem written_positional (d : Decimal) :
    Written d.positional.toList (d.digits * tenUp d.exponent) (min d.exponent 0) := by
  unfold Decimal.positional
  dsimp only
  split
  · rename_i hexp
    have hne : Nat.toDigits 10 d.digits ++ List.replicate d.exponent.toNat '0' ≠ [] := by
      simp [Nat.toDigits_ne_nil]
    have hdigit : ∀ c ∈ Nat.toDigits 10 d.digits ++ List.replicate d.exponent.toNat '0',
        c.isDigit = true := fun c hc =>
      (List.mem_append.mp hc).elim isDigit_of_mem_toDigits isDigit_of_mem_replicate
    have h := Written.whole hne hdigit
    rw [Literal.ofDigits_append_zeros, Literal.ofDigits_toDigits] at h
    rw [String.toList_ofList, min_eq_right hexp]
    exact h
  · rename_i hexp
    have h := written_pointed (fun _ => isDigit_of_mem_toDigits (n := d.digits)) (-d.exponent).toNat
    rw [Literal.ofDigits_toDigits] at h
    have hup : tenUp d.exponent = 1 := by
      unfold tenUp
      rw [show d.exponent.toNat = 0 by omega, Nat.pow_eq, Nat.pow_zero]
    rw [String.toList_ofList, hup, Nat.mul_one,
      show min d.exponent 0 = -((-d.exponent).toNat : Int) by omega]
    exact h

/-- the zeros that are written before the point make up for the exponent -/
theorem positional_value (d : Decimal) :
    ((d.digits * tenUp d.exponent : Nat) : ℚ) * 10 ^ min d.exponent 0 =
      d.digits * 10 ^ d.exponent := by
  unfold tenUp
  rw [Nat.pow_eq, Nat.cast_mul, Nat.cast_pow, mul_assoc, Nat.cast_ofNat, ← zpow_natCast,
    ← zpow_add₀ (by norm_num)]
  congr 2
  omega

/-! ## Reading them -/

namespace Written

variable {cs : List Char} {n : Nat} {x : Int}

theorem starts (h : Written cs n x) : ∃ c r, cs = c :: r ∧ c.isDigit = true := by
  cases h with
  | whole hne hds =>
    obtain ⟨c, r, rfl⟩ := List.exists_cons_of_ne_nil hne
    exact ⟨c, r, rfl, hds c List.mem_cons_self⟩
  | @pointed ds fs hne hds _ =>
    obtain ⟨c, r, rfl⟩ := List.exists_cons_of_ne_nil hne
    exact ⟨c, r ++ '.' :: fs, rfl, hds c List.mem_cons_self⟩

theorem mem (h : Written cs n x) {c : Char} (hc : c ∈ cs) : c.isDigit = true ∨ c = '.' := by
  cases h with
  | whole _ hds => exact .inl (hds c hc)
  | pointed _ hds hfs =>
    rw [List.mem_append, List.mem_cons] at hc
    obtain hc | rfl | hc := hc
    · exact .inl (hds c hc)
    · exact .inr rfl
    · exact .inl (hfs c hc)

theorem splitSign_append (h : Written cs n x) (negative : Bool) (rest : List Char) :
    Literal.splitSign ((if negative then "-" else "").toList ++ (cs ++ rest)) =
      (negative, cs ++ rest) := by
  cases negative with
  | true => rfl
  | false =>
    obtain ⟨c, r, rfl, hc⟩ := h.starts
    show Literal.splitSign (c :: (r ++ rest)) = (false, c :: (r ++ rest))
    unfold Literal.splitSign
    split
    · rename_i heq
      cases heq
      cases hc
    · rename_i heq
      cases heq
      cases hc
    · rfl

/-- the digits end where something else begins, which is read as the exponent -/
theorem read?_followed (h : Written cs n x) (negative : Bool) (rest : List Char)
    (hrest : ∀ c ∈ rest.head?, c.isDigit = false ∧ c ≠ '.') :
    Literal.read? ((if negative then "-" else "").toList ++ (cs ++ rest)) =
      (Literal.readExponent? rest).map fun k => ⟨negative, n, k + x⟩ := by
  have hends : rest.takeWhile Char.isDigit = [] ∧ rest.dropWhile Char.isDigit = rest ∧
      Literal.splitFraction rest = ([], rest) := by
    cases rest with
    | nil => exact ⟨rfl, rfl, rfl⟩
    | cons c rest =>
      obtain ⟨hdigit, hpoint⟩ := hrest c rfl
      refine ⟨by simp [hdigit], by simp [hdigit], ?_⟩
      unfold Literal.splitFraction
      split
      · rename_i heq
        cases heq
        exact absurd rfl hpoint
      · rfl
  obtain ⟨htake, hdrop, hpoint⟩ := hends
  unfold Literal.read?
  rw [h.splitSign_append]
  cases h with
  | whole hne hds =>
    simp [List.takeWhile_append_of_pos hds, List.dropWhile_append_of_pos hds, htake, hdrop, hpoint,
      hne]
  | @pointed ds fs hne hds hfs =>
    simp [List.takeWhile_append_of_pos hds, List.dropWhile_append_of_pos hds,
      List.takeWhile_append_of_pos hfs, List.dropWhile_append_of_pos hfs, htake, hdrop,
      Literal.splitFraction, hne, sub_eq_add_neg]

theorem read? (h : Written cs n x) (negative : Bool) :
    Literal.read? ((if negative then "-" else "").toList ++ cs) = some ⟨negative, n, x⟩ := by
  have hread := h.read?_followed negative [] fun c hc => nomatch hc
  rwa [List.append_nil, Literal.readExponent?, Option.map_some, zero_add] at hread

end Written

/-! ## The value of a literal -/

namespace Literal

theorem two_zpow_lt_of_clamped {l : Literal} (h : l.exponent < -(400 + (l.digits.log2 : Int))) :
    (l.digits : ℚ) * 10 ^ l.exponent < 2 ^ (-1075 : Int) := by
  have hdigits : (l.digits : ℚ) < 2 ^ ((l.digits.log2 : Int) + 1) := by
    exact_mod_cast Nat.lt_log2_self (n := l.digits)
  generalize l.digits.log2 = k at h hdigits
  have hten : (10 : ℚ) ^ l.exponent ≤ 2 ^ (-(3 * (401 + (k : Int)))) := by
    calc (10 : ℚ) ^ l.exponent ≤ 10 ^ (-(401 + (k : Int))) :=
          zpow_le_zpow_right₀ (by norm_num) (by omega)
      _ = ((10 : ℚ) ^ (401 + k))⁻¹ := by
          rw [zpow_neg]
          norm_cast
      _ ≤ ((8 : ℚ) ^ (401 + k))⁻¹ :=
          inv_anti₀ (by positivity) (pow_le_pow_left₀ (by norm_num) (by norm_num) _)
      _ = 2 ^ (-(3 * (401 + (k : Int)))) := by
          rw [zpow_neg, zpow_mul]
          norm_cast
  calc (l.digits : ℚ) * 10 ^ l.exponent
      < 2 ^ ((k : Int) + 1) * 10 ^ l.exponent :=
        mul_lt_mul_of_pos_right hdigits (zpow_pos (by norm_num) _)
    _ ≤ 2 ^ ((k : Int) + 1) * 2 ^ (-(3 * (401 + (k : Int)))) :=
        mul_le_mul_of_nonneg_left hten (two_zpow_pos _).le
    _ = 2 ^ ((k : Int) + 1 + -(3 * (401 + (k : Int)))) := (two_zpow_add _ _).symm
    _ ≤ 2 ^ (-1075 : Int) := zpow_le_zpow_right₀ (by norm_num) (by omega)

/-- the digits of a number that is no smaller than the doubles leave the exponent as it is -/
theorem clampedExponent_eq {l : Literal} (hexp : l.exponent ≤ 0)
    (h : (2 : ℚ) ^ (-1075 : Int) ≤ l.digits * 10 ^ l.exponent) :
    l.clampedExponent = l.exponent := by
  have hlow : ¬ l.exponent < -(400 + (l.digits.log2 : Int)) := fun hlt =>
    absurd (two_zpow_lt_of_clamped hlt) (not_lt.mpr h)
  unfold clampedExponent
  omega

theorem value_eq {c : Cell} (hc : c.Normalized) {l : Literal} (hexp : l.exponent ≤ 0)
    (h : c.Contains (l.digits * 10 ^ l.exponent)) :
    l.value = ofMagnitudeBits l.negative
      (min ((c.exponent - leastExponent).toNat * Nat.pow 2 52 + c.mantissa) infinityBits) := by
  have hsize : (2 : ℚ) ^ (-1075 : Int) ≤ l.digits * 10 ^ l.exponent := by
    have hm : (1 : ℚ) ≤ c.mantissa := by exact_mod_cast hc.pos
    have hleast : (-1074 : Int) ≤ c.exponent := hc.least
    calc (2 : ℚ) ^ (-1075 : Int) = 2 * 2 ^ (-1074 - 2 : Int) := by
          rw [show (-1075 : Int) = 1 + (-1074 - 2) by decide, two_zpow_add, zpow_one]
      _ ≤ 2 * 2 ^ (c.exponent - 2) :=
          mul_le_mul_of_nonneg_left (zpow_le_zpow_right₀ (by norm_num) (by omega)) (by norm_num)
      _ ≤ (4 * c.mantissa - 2) * 2 ^ (c.exponent - 2) :=
          mul_le_mul_of_nonneg_right (by linarith) (two_zpow_pos _).le
      _ ≤ l.digits * 10 ^ l.exponent := c.four_mul_sub_le.trans h.lower_le
  unfold value
  rw [clampedExponent_eq hexp hsize]
  have hdown : (tenDown l.exponent : ℚ) ≠ 0 := Nat.cast_ne_zero.mpr (tenDown_pos _).ne'
  have hquot : ((l.digits * tenUp l.exponent : Nat) : ℚ) / tenDown l.exponent =
      l.digits * 10 ^ l.exponent := by
    rw [Nat.cast_mul, tenUp_eq, ← mul_assoc, mul_div_assoc, div_self hdown, mul_one]
  show ofMagnitudeBits l.negative (nearestBits _ _) = _
  rw [nearestBits_eq hc (tenDown_pos _) (hquot ▸ h)]

end Literal

/-! ## Texts of doubles -/

/-- the decimal number that the text of a double without its sign shows -/
theorem exists_positional {x : Float} (hx : x.isFinite = true) :
    ∃ d : Decimal, magnitudeText x = d.positional ∧
      ∀ negative, Literal.value ⟨negative, d.digits * tenUp d.exponent, min d.exponent 0⟩ =
        ofMagnitudeBits negative (magnitudeBits x) := by
  unfold magnitudeText
  rw [isInf_eq_false hx, if_neg Bool.false_ne_true]
  dsimp only
  split
  · rename_i hzero
    refine ⟨⟨0, 0⟩, rfl, fun negative => ?_⟩
    rw [magnitudeBits_eq_zero hzero]
    rfl
  · rename_i hne
    have hcell := normalized_ofFloat hne
    have hcontains := Cell.shortest_contains hcell.pos
    refine ⟨_, rfl, fun negative => ?_⟩
    generalize Cell.shortest _ = d at hcontains ⊢
    have hvalue := positional_value d
    rw [Literal.value_eq hcell (min_le_right _ _) (hvalue ▸ hcontains),
      magnitudeBits_ofFloat, min_eq_left (magnitudeBits_lt hx).le]

theorem read?_text {x : Float} (hx : x.isFinite = true) :
    ∃ l, Literal.read? (text x).toList = some l ∧ l.value = x := by
  obtain ⟨d, htext, hvalue⟩ := exists_positional hx
  refine ⟨_, ?_, hvalue (signBit x) |>.trans (ofMagnitudeBits_magnitudeBits x)⟩
  unfold text
  rw [isNaN_eq_false hx, if_neg Bool.false_ne_true, String.toList_append, htext]
  exact (written_positional d).read? (signBit x)

/-- the words for what is not a finite number -/
theorem text_cases (x : Float) :
    x.isFinite = true ∨ x = Float.nan ∧ text x = "NaN" ∨
      magnitudeBits x = infinityBits ∧ text x = (if signBit x then "-" else "") ++ "inf" := by
  cases hnan : x.isNaN with
  | true =>
    refine .inr (.inl ⟨?_, by rw [text, hnan]; rfl⟩)
    rwa [Float.isNaN_eq_decide_eq_nan, decide_eq_true_iff] at hnan
  | false =>
    cases hinf : x.isInf with
    | true =>
      refine .inr (.inr ⟨magnitudeBits_of_isInf hinf, ?_⟩)
      rw [text, hnan, magnitudeText, hinf]
      rfl
    | false => exact .inl (isFinite_of_eq_false hnan hinf)

/-- the words are no literals -/
theorem read?_text_eq_none {x : Float} (hx : ¬ x.isFinite = true) :
    Literal.read? (text x).toList = none := by
  obtain hfin | ⟨-, htext⟩ | ⟨-, htext⟩ := text_cases x
  · exact absurd hfin hx
  · rw [htext]
    rfl
  · rw [htext]
    cases signBit x <;> rfl

/-- which of them it is gives the number -/
theorem eq_of_word {x : Float} (hx : ¬ x.isFinite = true) :
    x = if text x = "NaN" then Float.nan
      else ofMagnitudeBits (decide (text x = "-inf")) infinityBits := by
  obtain hfin | ⟨hnan, htext⟩ | ⟨hinf, htext⟩ := text_cases x
  · exact absurd hfin hx
  · rw [if_pos htext, hnan]
  · have hbits := ofMagnitudeBits_magnitudeBits x
    rw [hinf] at hbits
    cases hsign : signBit x <;> rw [hsign] at htext hbits <;> rw [htext] <;> exact hbits.symm

theorem text_injective {x y : Float} (h : text x = text y) : x = y := by
  by_cases hx : x.isFinite = true
  · obtain ⟨l, hl, rfl⟩ := read?_text hx
    by_cases hy : y.isFinite = true
    · obtain ⟨l', hl', rfl⟩ := read?_text hy
      rw [h, hl', Option.some_inj] at hl
      rw [hl]
    · rw [h, read?_text_eq_none hy] at hl
      cases hl
  · have hy : ¬ y.isFinite = true := by
      intro hy
      obtain ⟨l, hl, -⟩ := read?_text hy
      rw [← h, read?_text_eq_none hx] at hl
      cases hl
    rw [eq_of_word hx, eq_of_word hy, h]

/-- the characters of the texts: digits, the point, the sign, and the letters of the words -/
def isTextChar (c : Char) : Bool := c.isDigit || "-.infNa".toList.contains c

theorem text_shape (x : Float) :
    (text x).toList ≠ [] ∧ ∀ c ∈ (text x).toList, isTextChar c = true := by
  obtain hfin | ⟨-, htext⟩ | ⟨-, htext⟩ := text_cases x
  · obtain ⟨d, htext, -⟩ := exists_positional hfin
    have hwritten := written_positional d
    unfold text
    rw [isNaN_eq_false hfin, if_neg Bool.false_ne_true, String.toList_append, htext]
    refine ⟨?_, fun c hc => ?_⟩
    · obtain ⟨c, r, hcs, -⟩ := hwritten.starts
      simp [hcs]
    · obtain hc | hc := List.mem_append.mp hc
      · cases hsign : signBit x <;> rw [hsign] at hc
        · cases hc
        · rw [List.mem_singleton.mp hc]
          rfl
      · obtain hdigit | rfl := hwritten.mem hc
        · rw [isTextChar, hdigit, Bool.true_or]
        · rfl
  · rw [htext]
    exact ⟨by decide, List.all_eq_true.mp rfl⟩
  · rw [htext]
    cases signBit x <;> exact ⟨by decide, List.all_eq_true.mp rfl⟩

end ChartLisp.Number
