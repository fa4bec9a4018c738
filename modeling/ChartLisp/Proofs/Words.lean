import ChartLisp.Atom
import Mathlib.Computability.RegularExpressions
import Mathlib.Data.List.TakeWhile
import Mathlib.Tactic.IntervalCases

/-!
# Which words are numbers

A word of the source is a number if it is a decimal literal, that is if it matches

    [+-]? ( D+ ( . D* )? | . D+ ) ( [eE] [+-]? D+ )?

with `D` a digit.  Words that start with a digit all the same are malformed, and the others are
symbols.  Names of infinities and of undefined values count among the symbols, though the usual
notation of doubles has them: it is cut down to the words that start, behind a sign, with a digit or
a point.

* `oneOf`, `optional`, `repeated`, `caseless`   patterns, and what matches them
* `numeral`                 the pattern above
* `double`                  the usual notation of doubles, with `inf`, `infinity` and `nan`
* `mem_signed`              a sign in front of a pattern is what `splitSign` takes off
* `mem_unsigned_iff`        the rest is what the reader takes apart
* `read?_isSome_iff`        the reader accepts the numerals
* `ofWord?_classified`      numbers, malformed words and symbols
-/

namespace ChartLisp.Word

open Number.Literal (splitSign splitFraction readExponent? read?)
open RegularExpression (char)

/-! ## Patterns -/

/-- one of the characters -/
def oneOf (cs : List Char) : RegularExpression Char := (cs.map char).foldr (· + ·) 0

def optional (r : RegularExpression Char) : RegularExpression Char := 1 + r

/-- once or more often -/
def repeated (r : RegularExpression Char) : RegularExpression Char := r * r.star

/-- the word in any mixture of small and capital letters -/
def caseless (word : List Char) : RegularExpression Char :=
  (word.map fun c => oneOf [c.toLower, c.toUpper]).foldr (· * ·) 1

/-- the first character is one of these -/
def Starts (cs s : List Char) : Prop := ∃ c ∈ s.head?, c ∈ cs

section
variable {r q : RegularExpression Char} {cs ds s t : List Char}

theorem mem_oneOf : s ∈ (oneOf cs).matches' ↔ ∃ c ∈ cs, s = [c] := by
  induction cs with
  | nil => simp [oneOf, Language.notMem_zero]
  | cons c cs ih =>
    show s ∈ (char c + oneOf cs).matches' ↔ _
    rw [RegularExpression.matches'_add, Language.mem_add, ih, List.exists_mem_cons_iff]
    rfl

theorem mem_optional : s ∈ (optional r).matches' ↔ s = [] ∨ s ∈ r.matches' := by
  rw [optional, RegularExpression.matches'_add, Language.mem_add,
    RegularExpression.matches'_epsilon, Language.mem_one]

theorem mem_add : s ∈ (r + q).matches' ↔ s ∈ r.matches' ∨ s ∈ q.matches' := Iff.rfl

theorem mem_mul : s ∈ (r * q).matches' ↔ ∃ a ∈ r.matches', ∃ b ∈ q.matches', a ++ b = s :=
  Language.mem_mul

theorem mem_char_mul {c : Char} :
    s ∈ (char c * q).matches' ↔ ∃ t ∈ q.matches', s = c :: t := by
  rw [mem_mul]
  constructor
  · rintro ⟨a, rfl, t, ht, rfl⟩
    exact ⟨t, ht, rfl⟩
  · rintro ⟨t, ht, rfl⟩
    exact ⟨[c], rfl, t, ht, rfl⟩

theorem mem_oneOf_mul : s ∈ (oneOf cs * q).matches' ↔ ∃ c ∈ cs, ∃ t ∈ q.matches', s = c :: t := by
  simp only [mem_mul, mem_oneOf]
  constructor
  · rintro ⟨a, ⟨c, hc, rfl⟩, t, ht, rfl⟩
    exact ⟨c, hc, t, ht, rfl⟩
  · rintro ⟨c, hc, t, ht, rfl⟩
    exact ⟨[c], ⟨c, hc, rfl⟩, t, ht, rfl⟩

theorem mem_star_oneOf : s ∈ (oneOf cs).star.matches' ↔ ∀ c ∈ s, c ∈ cs := by
  rw [RegularExpression.matches'_star, Language.mem_kstar]
  constructor
  · rintro ⟨parts, rfl, hparts⟩ c hc
    obtain ⟨part, hpart, hc⟩ := List.mem_flatten.mp hc
    obtain ⟨d, hd, rfl⟩ := mem_oneOf.mp (hparts part hpart)
    rwa [List.mem_singleton.mp hc]
  · intro h
    refine ⟨s.map fun c => [c], ?_, ?_⟩
    · rw [← List.flatMap_def, List.flatMap_singleton']
    · intro part hpart
      obtain ⟨c, hc, rfl⟩ := List.mem_map.mp hpart
      exact mem_oneOf.mpr ⟨c, h c hc, rfl⟩

theorem mem_repeated_oneOf :
    s ∈ (repeated (oneOf cs)).matches' ↔ s ≠ [] ∧ ∀ c ∈ s, c ∈ cs := by
  rw [repeated, mem_oneOf_mul]
  constructor
  · rintro ⟨c, hc, t, ht, rfl⟩
    exact ⟨List.cons_ne_nil c t, List.forall_mem_cons.mpr ⟨hc, mem_star_oneOf.mp ht⟩⟩
  · rintro ⟨hne, hs⟩
    obtain ⟨c, t, rfl⟩ := List.exists_cons_of_ne_nil hne
    obtain ⟨hc, ht⟩ := List.forall_mem_cons.mp hs
    exact ⟨c, hc, t, mem_star_oneOf.mpr ht, rfl⟩

theorem starts_cons {c : Char} : Starts cs (c :: s) ↔ c ∈ cs := by simp [Starts]

theorem Starts.ne_nil (hs : Starts cs s) : s ≠ [] := by
  rintro rfl
  obtain ⟨c, hhead, _⟩ := hs
  cases hhead

theorem Starts.mono (hs : Starts cs s) (hsubset : cs ⊆ ds) : Starts ds s := by
  obtain ⟨c, hhead, hc⟩ := hs
  exact ⟨c, hhead, hsubset hc⟩

theorem Starts.disjoint (hs : Starts cs s) (hdisjoint : cs.all (· ∉ ds) = true) :
    ¬ Starts ds s := by
  obtain ⟨c, hhead, hc⟩ := hs
  rintro ⟨d, hhead', hd⟩
  obtain rfl : c = d := Option.mem_unique hhead hhead'
  exact of_decide_eq_true (List.all_eq_true.mp hdisjoint c hc) hd

end

/-! ## Numerals -/

def digits : List Char := ['0', '1', '2', '3', '4', '5', '6', '7', '8', '9']

def signs : List Char := ['+', '-']

def digit : RegularExpression Char := oneOf digits

def sign : RegularExpression Char := oneOf signs

def exponent : RegularExpression Char := oneOf ['e', 'E'] * (optional sign * repeated digit)

/-- digits with a point before, among or behind them, or without one -/
def mantissa : RegularExpression Char :=
  repeated digit * optional (char '.' * digit.star) + char '.' * repeated digit

def unsigned : RegularExpression Char := mantissa * optional exponent

def numeral : RegularExpression Char := optional sign * unsigned

def special : RegularExpression Char :=
  caseless "inf".toList + caseless "infinity".toList + caseless "nan".toList

/-- the same as `mantissa`, in the usual three cases -/
def positional : RegularExpression Char :=
  repeated digit + repeated digit * (char '.' * digit.star) +
    digit.star * (char '.' * repeated digit)

/-- the usual notation of doubles -/
def double : RegularExpression Char :=
  optional sign * (special + positional * optional exponent)

theorem isDigit_iff {c : Char} : c.isDigit = true ↔ c ∈ digits := by
  constructor
  · intro h
    have hrange : 48 ≤ c.toNat ∧ c.toNat ≤ 57 := by
      simpa [Char.isDigit, UInt32.le_iff_toNat_le] using h
    obtain ⟨hlow, hhigh⟩ := hrange
    rw [← Char.ofNat_toNat c]
    generalize c.toNat = n at hlow hhigh
    interval_cases n <;> decide
  · intro h
    have hall : digits.all Char.isDigit = true := rfl
    exact List.all_eq_true.mp hall c h

theorem forall_isDigit_iff {s : List Char} : (∀ c ∈ s, c.isDigit = true) ↔ ∀ c ∈ s, c ∈ digits :=
  forall₂_congr fun _ _ => isDigit_iff

section
variable {s t : List Char}

theorem splitSign_of_not_starts (h : ¬ Starts signs s) : splitSign s = (false, s) := by
  unfold splitSign
  split
  · exact absurd (starts_cons.mpr (by decide)) h
  · exact absurd (starts_cons.mpr (by decide)) h
  · rfl

/-- an optional sign before words that have none themselves -/
theorem mem_signed {r : RegularExpression Char} (hr : ∀ t ∈ r.matches', ¬ Starts signs t) :
    s ∈ (optional sign * r).matches' ↔ (splitSign s).2 ∈ r.matches' := by
  simp only [mem_mul, mem_optional, sign, mem_oneOf]
  constructor
  · rintro ⟨a, rfl | ⟨c, hc, rfl⟩, t, ht, rfl⟩
    -- `t` has no sign of its own that could be taken off
    · rw [List.nil_append, splitSign_of_not_starts (hr t ht)]
      exact ht
    · rcases List.mem_pair.mp hc with rfl | rfl
      · exact ht
      · exact ht
  · intro h
    unfold splitSign at h
    split at h
    · exact ⟨['+'], .inr ⟨'+', by decide, rfl⟩, _, h, rfl⟩
    · exact ⟨['-'], .inr ⟨'-', by decide, rfl⟩, _, h, rfl⟩
    · exact ⟨[], .inl rfl, _, h, rfl⟩

theorem starts_of_repeated (h : s ∈ (repeated digit).matches') : Starts digits s := by
  obtain ⟨hne, hs⟩ := mem_repeated_oneOf.mp h
  obtain ⟨c, t, rfl⟩ := List.exists_cons_of_ne_nil hne
  exact starts_cons.mpr (hs c List.mem_cons_self)

/-! ## Exponents -/

theorem mem_signed_digits_iff :
    s ∈ (optional sign * repeated digit).matches' ↔
      (splitSign s).2 ≠ [] ∧ (splitSign s).2.all Char.isDigit = true := by
  rw [mem_signed fun t ht => (starts_of_repeated ht).disjoint rfl, digit, mem_repeated_oneOf,
    List.all_eq_true, forall_isDigit_iff]

theorem cons_mem_exponent_iff {c : Char} :
    c :: s ∈ (optional exponent).matches' ↔
      (c = 'e' ∨ c = 'E') ∧ s ∈ (optional sign * repeated digit).matches' := by
  rw [mem_optional, exponent, mem_oneOf_mul]
  constructor
  · rintro (h | ⟨d, hd, u, hu, heq⟩)
    · cases h
    · cases heq
      exact ⟨List.mem_pair.mp hd, hu⟩
  · rintro ⟨hc, hs⟩
    exact .inr ⟨c, List.mem_pair.mpr hc, s, hs, rfl⟩

theorem mem_exponent_iff : s ∈ (optional exponent).matches' ↔ (readExponent? s).isSome = true := by
  cases s with
  | nil => exact ⟨fun _ => rfl, fun _ => mem_optional.mpr (.inl rfl)⟩
  | cons c s =>
    rw [cons_mem_exponent_iff, mem_signed_digits_iff, readExponent?]
    by_cases hc : c = 'e' ∨ c = 'E'
    · by_cases hs : (splitSign s).2 ≠ [] ∧ (splitSign s).2.all Char.isDigit = true
      · simp [hc, hs]
      · simp only [hc, hs, and_false, if_true, if_false, Option.isSome_none, Bool.false_eq_true]
    · simp [hc]

/-- an exponent ends the digits before it -/
theorem not_starts_of_exponent (h : s ∈ (optional exponent).matches') :
    ¬ Starts ('.' :: digits) s := by
  rcases mem_optional.mp h with rfl | h
  · exact fun hstarts => hstarts.ne_nil rfl
  · obtain ⟨c, hc, t, _, rfl⟩ := mem_oneOf_mul.mp h
    exact (starts_cons.mpr hc).disjoint rfl

/-! ## Digits and points -/

/-- at least one digit, before the point or behind it -/
inductive Written : List Char → Prop where
  | whole {ds : List Char} (hds : ∀ c ∈ ds, c ∈ digits) (hne : ds ≠ []) : Written ds
  | pointed {ds fs : List Char} (hds : ∀ c ∈ ds, c ∈ digits) (hfs : ∀ c ∈ fs, c ∈ digits)
      (hne : ¬ (ds = [] ∧ fs = [])) : Written (ds ++ '.' :: fs)

theorem mem_mantissa_iff : s ∈ mantissa.matches' ↔ Written s := by
  rw [mantissa, mem_add, mem_mul, mem_char_mul]
  simp only [mem_optional, mem_char_mul, digit, mem_repeated_oneOf, mem_star_oneOf]
  constructor
  · rintro (⟨ds, ⟨hne, hds⟩, _, rfl | ⟨fs, hfs, rfl⟩, rfl⟩ | ⟨fs, ⟨hne, hfs⟩, rfl⟩)
    · rw [List.append_nil]
      exact .whole hds hne
    · exact .pointed hds hfs fun h => hne h.1
    · exact .pointed (List.forall_mem_nil _) hfs fun h => hne h.2
  · intro h
    cases h with
    | whole hds hne => exact .inl ⟨s, ⟨hne, hds⟩, [], .inl rfl, List.append_nil s⟩
    | @pointed ds fs hds hfs hne =>
      by_cases hempty : ds = []
      · exact .inr ⟨fs, ⟨fun h => hne ⟨hempty, h⟩, hfs⟩, by rw [hempty, List.nil_append]⟩
      · exact .inl ⟨ds, ⟨hempty, hds⟩, '.' :: fs, .inr ⟨fs, hfs, rfl⟩, rfl⟩

theorem mem_positional_iff : s ∈ positional.matches' ↔ Written s := by
  rw [positional, mem_add, mem_add, mem_mul, mem_mul]
  simp only [mem_char_mul, digit, mem_repeated_oneOf, mem_star_oneOf]
  constructor
  · rintro ((⟨hne, hds⟩ | ⟨ds, ⟨hne, hds⟩, _, ⟨fs, hfs, rfl⟩, rfl⟩) |
      ⟨ds, hds, _, ⟨fs, ⟨hne, hfs⟩, rfl⟩, rfl⟩)
    · exact .whole hds hne
    · exact .pointed hds hfs fun h => hne h.1
    · exact .pointed hds hfs fun h => hne h.2
  · intro h
    cases h with
    | whole hds hne => exact .inl (.inl ⟨hne, hds⟩)
    | @pointed ds fs hds hfs hne =>
      by_cases hempty : ds = []
      · exact .inr ⟨ds, hds, _, ⟨fs, ⟨fun h => hne ⟨hempty, h⟩, hfs⟩, rfl⟩, rfl⟩
      · exact .inl (.inr ⟨ds, ⟨hempty, hds⟩, _, ⟨fs, hfs, rfl⟩, rfl⟩)

/-- what the reader takes for the digits before a point, those behind it and the rest -/
def parts (s : List Char) : List Char × List Char × List Char :=
  (s.takeWhile Char.isDigit, splitFraction (s.dropWhile Char.isDigit))

theorem read?_isSome (s : List Char) :
    (read? s).isSome = true ↔
      ¬ ((parts (splitSign s).2).1 = [] ∧ (parts (splitSign s).2).2.1 = []) ∧
        (readExponent? (parts (splitSign s).2).2.2).isSome = true := by
  unfold read? parts
  dsimp only
  split
  · rename_i hempty
    exact ⟨nofun, fun h => absurd hempty h.1⟩
  · rename_i hne
    rw [Option.isSome_map]
    exact ⟨fun h => ⟨hne, h⟩, fun h => h.2⟩

theorem splitFraction_of_not_starts (h : ¬ Starts ['.'] s) : splitFraction s = ([], s) := by
  unfold splitFraction
  split
  · exact absurd (starts_cons.mpr (by decide)) h
  · rfl

/-- digits are taken as far as they go -/
theorem span_digits (hs : ∀ c ∈ s, c ∈ digits) (ht : ¬ Starts digits t) :
    (s ++ t).takeWhile Char.isDigit = s ∧ (s ++ t).dropWhile Char.isDigit = t := by
  have hstop : t.takeWhile Char.isDigit = [] ∧ t.dropWhile Char.isDigit = t := by
    cases t with
    | nil => exact ⟨rfl, rfl⟩
    | cons c t =>
      have hc : ¬ c.isDigit = true := fun h => ht (starts_cons.mpr (isDigit_iff.mp h))
      exact ⟨List.takeWhile_cons_of_neg hc, List.dropWhile_cons_of_neg hc⟩
  have hdigits := forall_isDigit_iff.mpr hs
  rw [List.takeWhile_append_of_pos hdigits, List.dropWhile_append_of_pos hdigits, hstop.1, hstop.2,
    List.append_nil]
  exact ⟨rfl, rfl⟩

/-- the reader finds the parts that a word was put together from -/
theorem parts_append (hs : Written s) (ht : ¬ Starts ('.' :: digits) t) :
    ¬ ((parts (s ++ t)).1 = [] ∧ (parts (s ++ t)).2.1 = []) ∧ (parts (s ++ t)).2.2 = t := by
  have hdigit : ¬ Starts digits t := fun h => ht (h.mono (List.subset_cons_self '.' digits))
  have hpoint : ¬ Starts ['.'] t := fun h => ht (h.mono (List.subset_append_left ['.'] digits))
  unfold parts
  cases hs with
  | whole hds hne =>
    obtain ⟨htake, hdrop⟩ := span_digits hds hdigit
    rw [htake, hdrop, splitFraction_of_not_starts hpoint]
    exact ⟨fun h => hne h.1, rfl⟩
  | @pointed ds fs hds hfs hne =>
    have hpoint : '.' ∉ digits := by decide
    have hstop : ¬ Starts digits ('.' :: (fs ++ t)) := fun h => hpoint (starts_cons.mp h)
    obtain ⟨htake, hdrop⟩ := span_digits hds hstop
    obtain ⟨htake', hdrop'⟩ := span_digits hfs hdigit
    rw [List.append_assoc, List.cons_append, htake, hdrop]
    show ¬ (ds = [] ∧ (fs ++ t).takeWhile Char.isDigit = []) ∧ (fs ++ t).dropWhile Char.isDigit = t
    rw [htake', hdrop']
    exact ⟨hne, rfl⟩

/-- and whatever it finds makes up the word -/
theorem written_of_parts (h : ¬ ((parts s).1 = [] ∧ (parts s).2.1 = [])) :
    ∃ m, Written m ∧ m ++ (parts s).2.2 = s := by
  have htaken (u : List Char) : ∀ c ∈ u.takeWhile Char.isDigit, c ∈ digits :=
    fun c hc => isDigit_iff.mp (List.mem_takeWhile_imp hc)
  unfold parts at h ⊢
  -- the digits behind a point are taken only if the first digits end at one
  by_cases hpoint : Starts ['.'] (s.dropWhile Char.isDigit)
  · obtain ⟨c, hhead, hc⟩ := hpoint
    obtain rfl := List.mem_singleton.mp hc
    obtain ⟨r, hr⟩ := List.head?_eq_some_iff.mp hhead
    rw [hr] at h ⊢
    refine ⟨_, .pointed (htaken s) (htaken r) h, ?_⟩
    show (s.takeWhile Char.isDigit ++ '.' :: r.takeWhile Char.isDigit) ++
      r.dropWhile Char.isDigit = s
    rw [List.append_assoc, List.cons_append, List.takeWhile_append_dropWhile, ← hr,
      List.takeWhile_append_dropWhile]
  · rw [splitFraction_of_not_starts hpoint] at h ⊢
    exact ⟨_, .whole (htaken s) fun hempty => h ⟨hempty, rfl⟩, List.takeWhile_append_dropWhile⟩

theorem mem_unsigned_iff :
    s ∈ unsigned.matches' ↔ ¬ ((parts s).1 = [] ∧ (parts s).2.1 = []) ∧
      (readExponent? (parts s).2.2).isSome = true := by
  rw [unsigned, mem_mul]
  constructor
  · rintro ⟨m, hm, x, hx, rfl⟩
    obtain ⟨hne, hrest⟩ := parts_append (mem_mantissa_iff.mp hm) (not_starts_of_exponent hx)
    rw [hrest]
    exact ⟨hne, mem_exponent_iff.mp hx⟩
  · rintro ⟨hne, hx⟩
    obtain ⟨m, hm, happend⟩ := written_of_parts hne
    exact ⟨m, mem_mantissa_iff.mpr hm, _, mem_exponent_iff.mpr hx, happend⟩

/-! ## First characters -/

theorem Written.starts (h : Written s) (t : List Char) : Starts ('.' :: digits) (s ++ t) := by
  cases h with
  | whole hds hne =>
    obtain ⟨c, r, rfl⟩ := List.exists_cons_of_ne_nil hne
    exact starts_cons.mpr (List.mem_cons_of_mem _ (hds c List.mem_cons_self))
  | @pointed ds fs hds _ _ =>
    cases ds with
    | nil => exact starts_cons.mpr List.mem_cons_self
    | cons c ds => exact starts_cons.mpr (List.mem_cons_of_mem _ (hds c List.mem_cons_self))

theorem starts_of_unsigned (h : s ∈ unsigned.matches') : Starts ('.' :: digits) s := by
  obtain ⟨m, hm, x, _, rfl⟩ := mem_mul.mp h
  exact (mem_mantissa_iff.mp hm).starts x

theorem starts_of_caseless {c : Char} {w : List Char} (h : s ∈ (caseless (c :: w)).matches') :
    Starts [c.toLower, c.toUpper] s := by
  have hmul : s ∈ (oneOf [c.toLower, c.toUpper] * caseless w).matches' := h
  obtain ⟨d, hd, t, _, rfl⟩ := mem_oneOf_mul.mp hmul
  exact starts_cons.mpr hd

theorem starts_of_special (h : s ∈ special.matches') : Starts ['i', 'I', 'n', 'N'] s := by
  rcases h with (h | h) | h
  · exact (starts_of_caseless h).mono (List.subset_append_left ['i', 'I'] ['n', 'N'])
  · exact (starts_of_caseless h).mono (List.subset_append_left ['i', 'I'] ['n', 'N'])
  · exact (starts_of_caseless h).mono (List.subset_append_right ['i', 'I'] ['n', 'N'])

theorem mem_numeral_iff : s ∈ numeral.matches' ↔ (splitSign s).2 ∈ unsigned.matches' :=
  mem_signed fun _ ht => (starts_of_unsigned ht).disjoint rfl

theorem mem_special_iff :
    s ∈ (optional sign * special).matches' ↔ (splitSign s).2 ∈ special.matches' :=
  mem_signed fun _ ht => (starts_of_special ht).disjoint rfl

theorem mem_double_iff :
    s ∈ double.matches' ↔
      (splitSign s).2 ∈ special.matches' ∨ (splitSign s).2 ∈ unsigned.matches' := by
  have hpositional (t : List Char) :
      t ∈ (positional * optional exponent).matches' ↔ t ∈ unsigned.matches' := by
    simp only [unsigned, mem_mul, mem_positional_iff, mem_mantissa_iff]
  rw [double, mem_signed, mem_add, hpositional]
  intro t ht
  rw [mem_add, hpositional] at ht
  rcases ht with ht | ht
  · exact (starts_of_special ht).disjoint rfl
  · exact (starts_of_unsigned ht).disjoint rfl

/-- the numerals are the doubles that start like a number -/
theorem mem_numeral_iff_double :
    s ∈ numeral.matches' ↔ s ∈ double.matches' ∧ Starts ('.' :: digits) (splitSign s).2 := by
  rw [mem_numeral_iff, mem_double_iff]
  constructor
  · exact fun h => ⟨.inr h, starts_of_unsigned h⟩
  · rintro ⟨h | h, hstarts⟩
    · exact absurd hstarts ((starts_of_special h).disjoint rfl)
    · exact h

theorem read?_isSome_iff : (read? s).isSome = true ↔ s ∈ numeral.matches' := by
  rw [read?_isSome, mem_numeral_iff, mem_unsigned_iff]

end

/-! ## Words -/

/-- what a word of the source is -/
structure Classified (w : String) (a : Option Atom) : Prop where
  number : (∃ x, a = some (.number x)) ↔ w.toList ∈ numeral.matches'
  /-- a double that starts with a digit or a point behind its sign -/
  number_double : (∃ x, a = some (.number x)) ↔
    w.toList ∈ double.matches' ∧ Starts ('.' :: digits) (splitSign w.toList).2
  malformed : a = none ↔ w = "" ∨ Starts digits w.toList ∧ w.toList ∉ numeral.matches'
  symbol : a = some (.symbol w) ↔
    w ≠ "" ∧ ¬ Starts digits w.toList ∧ w.toList ∉ numeral.matches'
  /-- starting with a sign or a point does not make a number -/
  symbol_marked : Starts ('.' :: signs) w.toList → w.toList ∉ numeral.matches' →
    a = some (.symbol w)
  /-- nor does standing for an infinity or an undefined value, in capitals or not -/
  symbol_special : w.toList ∈ (optional sign * special).matches' → a = some (.symbol w)

theorem startsWithDigit_iff {s : List Char} : Atom.startsWithDigit s = true ↔ Starts digits s := by
  cases s with
  | nil => exact ⟨nofun, fun h => absurd rfl h.ne_nil⟩
  | cons c s => exact isDigit_iff.trans starts_cons.symm

section
variable {w : String}

theorem Starts.ne_empty {cs : List Char} (h : Starts cs w.toList) : w ≠ "" :=
  fun hempty => h.ne_nil (String.toList_eq_nil_iff.mpr hempty)

theorem ne_empty_of_numeral (h : w.toList ∈ numeral.matches') : w ≠ "" := by
  rintro rfl
  exact (starts_of_unsigned (mem_numeral_iff.mp h)).ne_nil rfl

variable (w) in
theorem ofWord?_cases :
    (w.toList ∈ numeral.matches' ∧ ∃ x, Atom.ofWord? w = some (.number x)) ∨
      w.toList ∉ numeral.matches' ∧
        ((w = "" ∨ Starts digits w.toList) ∧ Atom.ofWord? w = none ∨
          ¬ (w = "" ∨ Starts digits w.toList) ∧ Atom.ofWord? w = some (.symbol w)) := by
  rw [← String.toList_eq_nil_iff, ← startsWithDigit_iff, ← read?_isSome_iff]
  unfold Atom.ofWord?
  cases read? w.toList with
  | some l => exact .inl ⟨rfl, _, rfl⟩
  | none =>
    refine .inr ⟨Bool.false_ne_true, ?_⟩
    by_cases hdigit : w.toList = [] ∨ Atom.startsWithDigit w.toList = true
    · exact .inl ⟨hdigit, if_pos hdigit⟩
    · exact .inr ⟨hdigit, if_neg hdigit⟩

theorem ofWord?_eq_number_iff :
    (∃ x, Atom.ofWord? w = some (.number x)) ↔ w.toList ∈ numeral.matches' := by
  rcases ofWord?_cases w with ⟨hn, hx⟩ | ⟨hn, ⟨_, ha⟩ | ⟨_, ha⟩⟩
  · exact ⟨fun _ => hn, fun _ => hx⟩
  · simp [ha, hn]
  · simp [ha, hn]

theorem ofWord?_eq_none_iff :
    Atom.ofWord? w = none ↔ w = "" ∨ Starts digits w.toList ∧ w.toList ∉ numeral.matches' := by
  rcases ofWord?_cases w with ⟨hn, x, ha⟩ | ⟨hn, ⟨hdigit, ha⟩ | ⟨hdigit, ha⟩⟩
  · simp [ha, hn, ne_empty_of_numeral hn]
  · simpa [ha, hn] using hdigit
  · simpa [ha, hn] using hdigit

theorem ofWord?_eq_symbol_iff :
    Atom.ofWord? w = some (.symbol w) ↔
      w ≠ "" ∧ ¬ Starts digits w.toList ∧ w.toList ∉ numeral.matches' := by
  rcases ofWord?_cases w with ⟨hn, x, ha⟩ | ⟨hn, ⟨hdigit, ha⟩ | ⟨hdigit, ha⟩⟩
  · simp [ha, hn]
  · rw [ha]
    exact ⟨nofun, fun ⟨hne, hd, _⟩ => absurd hdigit (not_or.mpr ⟨hne, hd⟩)⟩
  · obtain ⟨hne, hd⟩ := not_or.mp hdigit
    exact ⟨fun _ => ⟨hne, hd, hn⟩, fun _ => ha⟩

/-- signs are not digits, so a word that starts with a digit starts so behind its sign, too -/
theorem ofWord?_of_special (h : w.toList ∈ (optional sign * special).matches') :
    Atom.ofWord? w = some (.symbol w) := by
  have hstarts : Starts ['i', 'I', 'n', 'N'] (splitSign w.toList).2 :=
    starts_of_special (mem_special_iff.mp h)
  refine ofWord?_eq_symbol_iff.mpr ⟨?_, ?_, ?_⟩
  · rintro rfl
    exact hstarts.ne_nil rfl
  · intro hdigit
    rw [splitSign_of_not_starts (hdigit.disjoint rfl)] at hstarts
    exact hstarts.disjoint rfl hdigit
  · intro hnumeral
    exact hstarts.disjoint rfl (starts_of_unsigned (mem_numeral_iff.mp hnumeral))

end

/-- A word is a number if it is a numeral, malformed if it is empty or starts with a digit all the
same, and else the symbol of its name. -/
theorem ofWord?_classified (w : String) : Classified w (Atom.ofWord? w) where
  number := ofWord?_eq_number_iff
  number_double := ofWord?_eq_number_iff.trans mem_numeral_iff_double
  malformed := ofWord?_eq_none_iff
  symbol := ofWord?_eq_symbol_iff
  symbol_marked hmarked hn := ofWord?_eq_symbol_iff.mpr ⟨hmarked.ne_empty, hmarked.disjoint rfl, hn⟩
  symbol_special := ofWord?_of_special

/-- a signed infinity in mixed case, and a signed word that goes on behind its digits -/
theorem ofWord?_signed :
    ("-Inf".toList ∈ (optional sign * special).matches' ∧
        Atom.ofWord? "-Inf" = some (.symbol "-Inf")) ∧
      ("+1abc".toList ∉ numeral.matches' ∧ Atom.ofWord? "+1abc" = some (.symbol "+1abc")) := by
  have hinfinity : "-Inf".toList ∈ (optional sign * special).matches' := by decide
  have hstarts : Starts ('.' :: signs) "+1abc".toList := ⟨'+', rfl, by decide⟩
  have hletters : "+1abc".toList ∉ numeral.matches' := by decide
  exact ⟨⟨hinfinity, (ofWord?_classified "-Inf").symbol_special hinfinity⟩,
    hletters, (ofWord?_classified "+1abc").symbol_marked hstarts hletters⟩

end ChartLisp.Word
