import ChartLisp.Token.Scan

/-!
# The longest match

The scanner cuts a source into pieces.  Each piece is the longest beginning of what is left of the
source that some kind's pattern has, and no two kinds have a text in common, so there is one way to
do it.  Every character begins a piece, so it never comes to an end before the source does.

* `Pattern.Matches`        the texts of a pattern
* `Pattern.matches_deriv`  a derivative has what is left of them behind a character
* `longest?_isLongest`     `longest?` finds the longest beginning
* `Longest k u rest`       `u` is the longest piece that `u ++ rest` begins with, and is of kind `k`
* `longest_plus`, `longest_string`, …   for each kind, when that is so
* `Pieces line cs ps`      cutting `cs` into pieces, from a line on, gives the tokens `ps`
* `scan_eq_ok`             the scanner does this, and never fails
-/

namespace ChartLisp.Token

/-! ## Patterns -/

namespace Pattern

def Matches : Pattern → List Char → Prop
  | .nothing, _ => False
  | .done, cs => cs = []
  | .one p, cs => ∃ c, p c = true ∧ cs = [c]
  | .many p, cs => ∀ c ∈ cs, p c = true
  | .seq a b, cs => ∃ u v, cs = u ++ v ∧ a.Matches u ∧ b.Matches v
  | .alt a b, cs => a.Matches cs ∨ b.Matches cs

theorem nullable_iff {r : Pattern} : r.nullable = true ↔ r.Matches [] := by
  induction r with
  | nothing | done | one _ | many _ => simp [nullable, Matches]
  | seq a b iha ihb =>
    rw [nullable, Bool.and_eq_true, iha, ihb]
    constructor
    · rintro ⟨ha, hb⟩
      exact ⟨[], [], rfl, ha, hb⟩
    · rintro ⟨u, v, huv, ha, hb⟩
      obtain ⟨rfl, rfl⟩ := List.append_eq_nil_iff.mp huv.symm
      exact ⟨ha, hb⟩
  | alt a b iha ihb => simp [nullable, Matches, iha, ihb]

theorem matches_andThen {a b : Pattern} {cs : List Char} :
    (a.andThen b).Matches cs ↔ (seq a b).Matches cs := by
  cases a with
  | done =>
    constructor
    · exact fun hb => ⟨[], cs, rfl, rfl, hb⟩
    · rintro ⟨_, _, rfl, rfl, hb⟩
      exact hb
  | _ => simp [andThen, Matches]

theorem matches_orElse {a b : Pattern} {cs : List Char} :
    (a.orElse b).Matches cs ↔ a.Matches cs ∨ b.Matches cs := by
  cases a <;> cases b <;> simp [orElse, Matches]

theorem matches_seq_cons {a b : Pattern} {c : Char} {cs : List Char} :
    (seq a b).Matches (c :: cs) ↔
      (a.Matches [] ∧ b.Matches (c :: cs)) ∨ ∃ u v, cs = u ++ v ∧ a.Matches (c :: u) ∧ b.Matches v := by
  constructor
  · rintro ⟨u, v, huv, ha, hb⟩
    cases u with
    | nil => exact .inl ⟨ha, huv ▸ hb⟩
    | cons d u =>
      obtain ⟨rfl, rfl⟩ := List.cons.inj huv
      exact .inr ⟨u, v, rfl, ha, hb⟩
  · rintro (⟨ha, hb⟩ | ⟨u, v, rfl, ha, hb⟩)
    · exact ⟨[], c :: cs, rfl, ha, hb⟩
    · exact ⟨c :: u, v, rfl, ha, hb⟩

theorem matches_deriv {r : Pattern} {c : Char} {cs : List Char} :
    (r.deriv c).Matches cs ↔ r.Matches (c :: cs) := by
  induction r generalizing cs with
  | nothing | done => simp [deriv, Matches]
  | one p =>
    constructor
    · intro h
      by_cases hp : p c = true
      · rw [deriv, if_pos hp] at h
        exact ⟨c, hp, congrArg (c :: ·) h⟩
      · rw [deriv, if_neg hp] at h
        exact h.elim
    · rintro ⟨_, hp, h⟩
      obtain ⟨rfl, rfl⟩ := List.cons.inj h
      rw [deriv, if_pos hp]
      rfl
  | many p => by_cases hp : p c = true <;> simp [deriv, Matches, hp]
  | seq a b iha ihb =>
    have hrest : ((a.deriv c).andThen b).Matches cs ↔
        ∃ u v, cs = u ++ v ∧ a.Matches (c :: u) ∧ b.Matches v := by
      rw [matches_andThen]
      simp only [Matches, iha]
    rw [matches_seq_cons, ← nullable_iff]
    cases ha : a.nullable with
    | true => simp [deriv, ha, matches_orElse, hrest, ihb, or_comm]
    | false => simp [deriv, ha, hrest]
  | alt a b iha ihb => simp [deriv, matches_orElse, iha, ihb, Matches]

end Pattern

/-- the length of the longest beginning of `cs` with a property, if there is one -/
def IsLongest (P : List Char → Prop) (cs : List Char) : Option Nat → Prop
  | some n => (∃ u, u <+: cs ∧ u.length = n ∧ P u) ∧ ∀ v, v <+: cs → P v → v.length ≤ n
  | none => ∀ v, v <+: cs → ¬ P v

/-- the beginnings of a text are empty, or go on with beginnings of its rest -/
theorem IsLongest.cons {P : List Char → Prop} {c : Char} {cs : List Char} {found here : Option Nat}
    (hfound : IsLongest (fun v => P (c :: v)) cs found) (hhere : IsLongest P [] here) :
    IsLongest P (c :: cs) ((found.map (· + 1)).or here) := by
  have hempty : ∀ v, v <+: [] → P v → here = some 0 := by
    intro v hv hp
    cases here with
    | none => exact absurd hp (hhere v hv)
    | some n =>
      obtain ⟨⟨u, hu, rfl, -⟩, -⟩ := hhere
      rw [List.prefix_nil.mp hu]
      rfl
  cases found with
  | some n =>
    obtain ⟨⟨u, hu, rfl, hp⟩, hmax⟩ := hfound
    refine ⟨⟨c :: u, List.prefix_cons_inj c |>.mpr hu, rfl, hp⟩, fun v hv hpv => ?_⟩
    rcases List.prefix_cons_iff.mp hv with rfl | ⟨w, rfl, hw⟩
    · exact Nat.zero_le _
    · exact Nat.succ_le_succ (hmax w hw hpv)
  | none =>
    have hcons : ∀ v, v <+: c :: cs → P v → v = [] := by
      intro v hv hpv
      rcases List.prefix_cons_iff.mp hv with rfl | ⟨w, rfl, hw⟩
      · rfl
      · exact absurd hpv (hfound w hw)
    show IsLongest P (c :: cs) here
    cases here with
    | some n =>
      obtain ⟨⟨u, hu, rfl, hp⟩, -⟩ := hhere
      refine ⟨⟨u, ?_, rfl, hp⟩, fun v hv hpv => ?_⟩
      · rw [List.prefix_nil.mp hu]
        exact List.nil_prefix
      · rw [hcons v hv hpv]
        exact Nat.zero_le _
    | none =>
      intro v hv hpv
      rw [hcons v hv hpv] at hpv
      exact hhere [] List.nil_prefix hpv

theorem Pattern.empty?_isLongest (r : Pattern) : IsLongest r.Matches [] r.empty? := by
  unfold Pattern.empty?
  split
  · rename_i h
    refine ⟨⟨[], List.nil_prefix, rfl, Pattern.nullable_iff.mp h⟩, fun v hv _ => ?_⟩
    rw [List.prefix_nil.mp hv]
    exact Nat.le_refl 0
  · rename_i h
    intro v hv hm
    rw [List.prefix_nil.mp hv] at hm
    exact h (Pattern.nullable_iff.mpr hm)

theorem Pattern.longest?_isLongest (cs : List Char) (r : Pattern) :
    IsLongest r.Matches cs (r.longest? cs) := by
  induction cs generalizing r with
  | nil => exact r.empty?_isLongest
  | cons c cs ih =>
    have hderiv : (r.deriv c).Matches = fun v => r.Matches (c :: v) :=
      funext fun v => propext Pattern.matches_deriv
    rw [Pattern.longest?]
    split
    · rename_i hnothing
      rw [hnothing] at hderiv
      have hnone : IsLongest (fun v => r.Matches (c :: v)) cs none := by
        rw [← hderiv]
        exact fun _ _ hm => hm
      exact hnone.cons r.empty?_isLongest
    · have hrest := ih (r.deriv c)
      rw [hderiv] at hrest
      exact hrest.cons r.empty?_isLongest

/-! ## The texts of each kind -/

namespace Pattern

theorem matches_char {c : Char} {cs : List Char} : (char c).Matches cs ↔ cs = [c] := by
  constructor
  · rintro ⟨d, hd, rfl⟩
    rw [eq_of_beq hd]
  · rintro rfl
    exact ⟨c, beq_self_eq_true c, rfl⟩

theorem matches_char_seq {c : Char} {r : Pattern} {cs : List Char} :
    (seq (char c) r).Matches cs ↔ ∃ v, r.Matches v ∧ cs = c :: v := by
  constructor
  · rintro ⟨u, v, rfl, hu, hv⟩
    rw [matches_char.mp hu]
    exact ⟨v, hv, rfl⟩
  · rintro ⟨v, hv, rfl⟩
    exact ⟨[c], v, rfl, matches_char.mpr rfl, hv⟩

theorem matches_many_ne {c : Char} {cs : List Char} : (many (· != c)).Matches cs ↔ c ∉ cs := by
  constructor
  · intro h hc
    exact absurd (h c hc) (by simp)
  · intro h d hd
    exact bne_iff_ne.mpr fun hdc => h (hdc ▸ hd)

theorem matches_plus {p : Char → Bool} {cs : List Char} :
    (plus p).Matches cs ↔ cs ≠ [] ∧ ∀ c ∈ cs, p c = true := by
  constructor
  · rintro ⟨_, v, rfl, ⟨c, hc, rfl⟩, hv⟩
    exact ⟨nofun, List.forall_mem_cons.mpr ⟨hc, hv⟩⟩
  · rintro ⟨hne, hall⟩
    cases cs with
    | nil => exact absurd rfl hne
    | cons c v =>
      obtain ⟨hc, hv⟩ := List.forall_mem_cons.mp hall
      exact ⟨[c], v, rfl, ⟨c, hc, rfl⟩, hv⟩

end Pattern

/-- the texts that each kind's pattern has -/
inductive Piece : Kind → List Char → Prop where
  | opening : Piece .opening ['(']
  | closing : Piece .closing [')']
  | string {text : List Char} (h : '"' ∉ text) : Piece .string ('"' :: (text ++ ['"']))
  | unclosed {text : List Char} (h : '"' ∉ text) : Piece .unclosed ('"' :: text)
  | word {text : List Char} (hne : text ≠ []) (h : ∀ c ∈ text, isWordChar c = true) :
      Piece .word text
  | comment {text : List Char} (h : '\n' ∉ text) : Piece .comment (';' :: text)
  | lineEnd : Piece .lineEnd ['\n']
  | spaces {text : List Char} (hne : text ≠ []) (h : ∀ c ∈ text, isSpace c = true) :
      Piece .spaces text

theorem Kind.matches_iff {k : Kind} {u : List Char} : k.pattern.Matches u ↔ Piece k u := by
  constructor
  · intro h
    cases k with
    | opening => exact Pattern.matches_char.mp h ▸ .opening
    | closing => exact Pattern.matches_char.mp h ▸ .closing
    | string =>
      obtain ⟨v, ⟨text, w, rfl, ht, hw⟩, rfl⟩ := Pattern.matches_char_seq.mp h
      rw [Pattern.matches_char.mp hw]
      exact .string (Pattern.matches_many_ne.mp ht)
    | unclosed =>
      obtain ⟨text, ht, rfl⟩ := Pattern.matches_char_seq.mp h
      exact .unclosed (Pattern.matches_many_ne.mp ht)
    | word => exact .word (Pattern.matches_plus.mp h).1 (Pattern.matches_plus.mp h).2
    | comment =>
      obtain ⟨text, ht, rfl⟩ := Pattern.matches_char_seq.mp h
      exact .comment (Pattern.matches_many_ne.mp ht)
    | lineEnd => exact Pattern.matches_char.mp h ▸ .lineEnd
    | spaces => exact .spaces (Pattern.matches_plus.mp h).1 (Pattern.matches_plus.mp h).2
  · intro h
    cases h with
    | opening | closing | lineEnd => exact Pattern.matches_char.mpr rfl
    | @string text h =>
      refine Pattern.matches_char_seq.mpr ⟨_, ⟨text, ['"'], rfl, ?_, ?_⟩, rfl⟩
      · exact Pattern.matches_many_ne.mpr h
      · exact Pattern.matches_char.mpr rfl
    | unclosed h | comment h =>
      exact Pattern.matches_char_seq.mpr ⟨_, Pattern.matches_many_ne.mpr h, rfl⟩
    | word hne h | spaces hne h => exact Pattern.matches_plus.mpr ⟨hne, h⟩

theorem isWordChar_eq_true {c : Char} :
    isWordChar c = true ↔
      isSpace c = false ∧ c ≠ '\n' ∧ c ≠ '(' ∧ c ≠ ')' ∧ c ≠ '"' ∧ c ≠ ';' := by
  simp only [isWordChar, isSpace, List.contains_eq_mem, Bool.not_eq_true', decide_eq_false_iff_not,
    List.mem_cons, List.not_mem_nil, or_false]
  grind

/-- the kind that a first character decides on, for a quote up to where the string ends -/
def Kind.ofFirst (c : Char) : Kind :=
  if c = '(' then .opening
  else if c = ')' then .closing
  else if c = '"' then .string
  else if c = ';' then .comment
  else if c = '\n' then .lineEnd
  else if isSpace c then .spaces
  else .word

def Kind.quoted : Kind → Kind
  | .unclosed => .string
  | k => k

theorem Kind.eq_of_quoted_eq {k k' : Kind} (h : k'.quoted = k.quoted) (hs : k ≠ .string)
    (hu : k ≠ .unclosed) : k = k' := by
  cases k <;> cases k' <;> simp_all [Kind.quoted]

namespace Piece

theorem exists_cons {k : Kind} {u : List Char} (h : Piece k u) :
    ∃ c v, u = c :: v ∧ k.quoted = Kind.ofFirst c := by
  cases h with
  | opening | closing | lineEnd => exact ⟨_, [], rfl, rfl⟩
  | string _ | unclosed _ | comment _ => exact ⟨_, _, rfl, rfl⟩
  | word hne h =>
    obtain ⟨c, v, rfl⟩ := List.exists_cons_of_ne_nil hne
    obtain ⟨hs, hn, h₁, h₂, h₃, h₄⟩ := isWordChar_eq_true.mp (h c List.mem_cons_self)
    exact ⟨c, v, rfl, by simp [Kind.ofFirst, Kind.quoted, hs, hn, h₁, h₂, h₃, h₄]⟩
  | spaces hne h =>
    obtain ⟨c, v, rfl⟩ := List.exists_cons_of_ne_nil hne
    refine ⟨c, v, rfl, ?_⟩
    have hc : c ∈ [' ', '\t', '\r', '\x0c', '\x0b'] := List.contains_iff_mem.mp (h c List.mem_cons_self)
    simp only [List.mem_cons, List.not_mem_nil, or_false] at hc
    rcases hc with rfl | rfl | rfl | rfl | rfl <;> rfl

theorem ne_nil {k : Kind} {u : List Char} (h : Piece k u) : u ≠ [] := by
  obtain ⟨c, v, rfl, -⟩ := h.exists_cons
  exact nofun

/-- pieces that one source begins with start with the same character -/
theorem quoted_eq {k k' : Kind} {u v cs : List Char} (hu : Piece k u) (hv : Piece k' v)
    (hucs : u <+: cs) (hvcs : v <+: cs) : k'.quoted = k.quoted := by
  obtain ⟨c, u, rfl, hc⟩ := hu.exists_cons
  obtain ⟨d, v, rfl, hd⟩ := hv.exists_cons
  obtain ⟨r, rfl⟩ := hucs
  obtain ⟨rfl, -⟩ := List.cons_prefix_cons.mp hvcs
  rw [hc, hd]

/-- no text is of two kinds -/
theorem unique {k k' : Kind} {u : List Char} (h : Piece k u) (h' : Piece k' u) : k = k' := by
  have hquoted := h.quoted_eq h' List.prefix_rfl List.prefix_rfl
  cases h with
  | @string text ht =>
    generalize hu : '"' :: (text ++ ['"']) = u at h'
    cases h' with
    | string _ => rfl
    | unclosed ht' =>
      obtain ⟨-, rfl⟩ := List.cons.inj hu
      exact absurd (List.mem_append_right text List.mem_cons_self) ht'
    | _ => cases hquoted
  | @unclosed text ht =>
    generalize hu : '"' :: text = u at h'
    cases h' with
    | unclosed _ => rfl
    | string _ =>
      obtain ⟨-, rfl⟩ := List.cons.inj hu
      exact absurd (List.mem_append_right _ List.mem_cons_self) ht
    | _ => cases hquoted
  | _ => exact Kind.eq_of_quoted_eq hquoted (by decide) (by decide)

end Piece

/-! ## The longest piece -/

/-- `u` is of kind `k`, and no longer beginning of `u ++ rest` is of any kind -/
structure Longest (k : Kind) (u rest : List Char) : Prop where
  fits : k.pattern.Matches u
  longest : ∀ (k' : Kind) (v : List Char), v <+: u ++ rest → k'.pattern.Matches v →
    v.length ≤ u.length

namespace Longest

variable {k : Kind} {u rest : List Char}

theorem piece (h : Longest k u rest) : Piece k u := Kind.matches_iff.mp h.fits

/-- only pieces that begin as `u` does can be longer -/
theorem of_piece (hu : Piece k u)
    (h : ∀ (k' : Kind) (v : List Char), k'.quoted = k.quoted → v <+: u ++ rest → Piece k' v →
      v.length ≤ u.length) : Longest k u rest := by
  refine ⟨Kind.matches_iff.mpr hu, fun k' v hv hm => ?_⟩
  have hpiece := Kind.matches_iff.mp hm
  exact h k' v (hu.quoted_eq hpiece (List.prefix_append u rest) hv) hv hpiece

theorem of_own (hs : k ≠ .string) (hc : k ≠ .unclosed) (hu : k.pattern.Matches u)
    (h : ∀ v, v <+: u ++ rest → k.pattern.Matches v → v.length ≤ u.length) : Longest k u rest := by
  refine .of_piece (Kind.matches_iff.mp hu) fun k' v hk hpre hv => ?_
  obtain rfl := Kind.eq_of_quoted_eq hk hs hc
  exact h v hpre (Kind.matches_iff.mpr hv)

theorem not_matches_append {d : Char} {r : List Char} (h : Longest k u (d :: r)) (k' : Kind) :
    ¬ Piece k' (u ++ [d]) := by
  intro hm
  have hpre : u ++ [d] <+: u ++ d :: r := ⟨r, by simp⟩
  have hle := h.longest k' (u ++ [d]) hpre (Kind.matches_iff.mpr hm)
  rw [List.length_append, List.length_singleton] at hle
  omega

/-- there is only one longest piece -/
theorem unique {k' : Kind} {u' rest' : List Char} (h : Longest k u rest)
    (h' : Longest k' u' rest') (hcs : u ++ rest = u' ++ rest') : k = k' ∧ u = u' ∧ rest = rest' := by
  have hpre : u <+: u' ++ rest' := hcs ▸ List.prefix_append u rest
  have hpre' : u' <+: u ++ rest := hcs ▸ List.prefix_append u' rest'
  have hlength : u.length = u'.length :=
    Nat.le_antisymm (h'.longest k u hpre h.fits) (h.longest k' u' hpre' h'.fits)
  obtain ⟨rfl, rfl⟩ := List.append_inj hcs hlength
  exact ⟨h.piece.unique h'.piece, rfl, rfl⟩

end Longest

/-- a run of characters of a class goes as far as the class does -/
theorem length_le_of_run {P : Char → Prop} {u v rest : List Char} (hv : v <+: u ++ rest)
    (hall : ∀ c ∈ v, P c) (hrest : ∀ c, rest.head? = some c → ¬ P c) : v.length ≤ u.length := by
  refine Nat.le_of_not_lt fun hlt => ?_
  obtain ⟨w, rfl⟩ := List.prefix_of_prefix_length_le (List.prefix_append u rest) hv (Nat.le_of_lt hlt)
  have hw : w <+: rest := (List.prefix_append_right_inj u).mp hv
  cases w with
  | nil => simp at hlt
  | cons d w =>
    obtain ⟨r, rfl⟩ := hw
    exact hrest d rfl (hall d (by simp))

theorem longest_char {k : Kind} {c : Char} (hk : k.pattern = .char c) (rest : List Char) :
    Longest k [c] rest := by
  have hmatches : k.pattern.Matches [c] := hk ▸ Pattern.matches_char.mpr rfl
  refine .of_own (by rintro rfl; cases hk) (by rintro rfl; cases hk) hmatches fun v _ hv => ?_
  rw [hk] at hv
  exact Nat.le_of_eq (congrArg List.length (Pattern.matches_char.mp hv))

theorem longest_plus {k : Kind} {p : Char → Bool} (hk : k.pattern = .plus p) (hs : k ≠ .string)
    (hc : k ≠ .unclosed) {u rest : List Char} (hu : k.pattern.Matches u)
    (hrest : ∀ c, rest.head? = some c → p c = false) : Longest k u rest := by
  refine .of_own hs hc hu fun v hpre hv => ?_
  rw [hk] at hv
  refine length_le_of_run hpre (Pattern.matches_plus.mp hv).2 fun c hc => ?_
  rw [hrest c hc]
  exact Bool.false_ne_true

theorem longest_comment {text rest : List Char} (ht : '\n' ∉ text)
    (hrest : ∀ c, rest.head? = some c → c = '\n') : Longest .comment (';' :: text) rest := by
  refine .of_own (by decide) (by decide) (Kind.matches_iff.mpr (.comment ht)) fun v hpre hv => ?_
  cases Kind.matches_iff.mp hv with
  | comment ht' =>
    have hpre' := (List.cons_prefix_cons.mp hpre).2
    refine Nat.succ_le_succ (length_le_of_run (P := (· ≠ '\n')) hpre' ?_ ?_)
    · exact fun c hc hn => ht' (hn ▸ hc)
    · exact fun c hc hn => hn (hrest c hc)

/-- a string goes to the first quote after its own -/
theorem longest_string {text : List Char} (ht : '"' ∉ text) (rest : List Char) :
    Longest .string ('"' :: (text ++ ['"'])) rest := by
  have hbefore : ∀ t, '"' ∉ t → t <+: text ++ ['"'] ++ rest → t.length ≤ text.length := by
    intro t ht' hpre
    rw [List.append_assoc] at hpre
    refine length_le_of_run (P := (· ≠ '"')) hpre (fun c hc hq => ht' (hq ▸ hc)) ?_
    rintro c hc hq
    exact hq (Option.some.inj hc).symm
  refine .of_piece (.string ht) fun k' v hk hpre hv => ?_
  rw [List.length_cons, List.length_append, List.length_singleton]
  cases hv with
  | @string t ht' =>
    have hle := hbefore t ht' ((List.prefix_append t ['"']).trans (List.cons_prefix_cons.mp hpre).2)
    simpa using hle
  | @unclosed t ht' =>
    have hle := hbefore t ht' (List.cons_prefix_cons.mp hpre).2
    rw [List.length_cons]
    omega
  | _ => cases hk

theorem longest_unclosed {text : List Char} (ht : '"' ∉ text) :
    Longest .unclosed ('"' :: text) [] := by
  refine .of_piece (.unclosed ht) fun k' v _ hpre _ => ?_
  rw [List.append_nil] at hpre
  exact hpre.length_le

/-! ## What stands behind the longest piece -/

/-- the first character, if there is one, ends a word -/
def EndsWord (cs : List Char) : Prop := ∀ c, cs.head? = some c → isWordChar c = false

/-- a run that could go on is not the longest -/
theorem Longest.head_of_plus {k : Kind} {p : Char → Bool} {u rest : List Char}
    (h : Longest k u rest) (hk : k.pattern = .plus p) {c : Char} (hc : rest.head? = some c) :
    p c = false := by
  refine Bool.eq_false_iff.mpr fun hp => ?_
  obtain ⟨r, rfl⟩ := List.head?_eq_some_iff.mp hc
  have hfits := h.fits
  rw [hk, Pattern.matches_plus] at hfits
  refine h.not_matches_append k (Kind.matches_iff.mp ?_)
  rw [hk, Pattern.matches_plus]
  refine ⟨by simp, fun d hd => ?_⟩
  rcases List.mem_append.mp hd with hd | hd
  · exact hfits.2 d hd
  · exact List.mem_singleton.mp hd ▸ hp

theorem Longest.of_comment {text rest : List Char} (h : Longest .comment (';' :: text) rest)
    (ht : '\n' ∉ text) : rest = [] ∨ ∃ r, rest = '\n' :: r := by
  cases rest with
  | nil => exact .inl rfl
  | cons d r =>
    refine .inr ⟨r, ?_⟩
    by_cases hd : d = '\n'
    · rw [hd]
    · have hlonger : '\n' ∉ text ++ [d] := by simpa using ⟨ht, Ne.symm hd⟩
      exact absurd (.comment hlonger) (h.not_matches_append .comment)

theorem Longest.of_unclosed {text rest : List Char} (h : Longest .unclosed ('"' :: text) rest)
    (ht : '"' ∉ text) : rest = [] := by
  cases rest with
  | nil => rfl
  | cons d r =>
    by_cases hd : d = '"'
    · subst hd
      exact absurd (.string ht) (h.not_matches_append .string)
    · have hlonger : '"' ∉ text ++ [d] := by simpa using ⟨ht, Ne.symm hd⟩
      exact absurd (.unclosed hlonger) (h.not_matches_append .unclosed)

theorem Piece.isSpace_head {k : Kind} {u rest : List Char} (h : Piece k u) (hk : k ≠ .spaces)
    {c : Char} (hc : (u ++ rest).head? = some c) : isSpace c = false := by
  refine Bool.eq_false_iff.mpr fun hspace => hk ?_
  obtain ⟨d, v, rfl, -⟩ := h.exists_cons
  obtain rfl := Option.some.inj hc
  have hone : Piece .spaces [d] := .spaces nofun (List.forall_mem_singleton.mpr hspace)
  have hquoted := h.quoted_eq hone List.prefix_rfl (List.prefix_append [d] v)
  exact (Kind.eq_of_quoted_eq hquoted.symm (by decide) (by decide)).symm

theorem Longest.cons_space {u rest : List Char} (h : Longest .spaces u rest) {c : Char}
    (hc : isSpace c = true) : Longest .spaces (c :: u) rest := by
  have hall : ∀ d ∈ c :: u, isSpace d = true :=
    List.forall_mem_cons.mpr ⟨hc, (Pattern.matches_plus.mp h.fits).2⟩
  exact longest_plus rfl (by decide) (by decide) (Pattern.matches_plus.mpr ⟨nofun, hall⟩)
    fun d hd => h.head_of_plus rfl hd

/-! ## What the scanner picks -/

/-- the kind and length of the longest beginning of `cs` of some of the kinds, if there is one -/
def IsPicked (ks : List Kind) (cs : List Char) : Option (Kind × Nat) → Prop
  | some (k, n) => (∃ u, u <+: cs ∧ u.length = n ∧ k.pattern.Matches u) ∧
      ∀ k' ∈ ks, ∀ v, v <+: cs → k'.pattern.Matches v → v.length ≤ n
  | none => ∀ k ∈ ks, ∀ v, v <+: cs → ¬ k.pattern.Matches v

theorem pick_isPicked (cs : List Char) (ks : List Kind) : IsPicked ks cs (pick cs ks) := by
  induction ks with
  | nil => exact List.forall_mem_nil _
  | cons k ks ih =>
    have hk := k.pattern.longest?_isLongest cs
    rw [pick]
    cases hfound : k.pattern.longest? cs with
    | none =>
      rw [hfound] at hk
      cases hbest : pick cs ks with
      | none =>
        rw [hbest] at ih
        exact List.forall_mem_cons.mpr ⟨hk, ih⟩
      | some best =>
        rw [hbest] at ih
        refine ⟨ih.1, List.forall_mem_cons.mpr ⟨fun v hv hm => ?_, ih.2⟩⟩
        exact absurd hm (hk v hv)
    | some n =>
      rw [hfound] at hk
      cases hbest : pick cs ks with
      | none =>
        rw [hbest] at ih
        refine ⟨hk.1, List.forall_mem_cons.mpr ⟨hk.2, fun k' hk' v hv hm => ?_⟩⟩
        exact absurd hm (ih k' hk' v hv)
      | some best =>
        obtain ⟨k', n'⟩ := best
        rw [hbest] at ih
        by_cases hlt : n < n'
        · simp only [hlt, if_true]
          refine ⟨ih.1, List.forall_mem_cons.mpr ⟨fun v hv hm => ?_, ih.2⟩⟩
          exact Nat.le_trans (hk.2 v hv hm) (Nat.le_of_lt hlt)
        · simp only [hlt, if_false]
          refine ⟨hk.1, List.forall_mem_cons.mpr ⟨hk.2, fun k'' hk'' v hv hm => ?_⟩⟩
          exact Nat.le_trans (ih.2 k'' hk'' v hv hm) (Nat.le_of_not_lt hlt)

theorem Kind.mem_all (k : Kind) : k ∈ Kind.all := by
  cases k <;> decide

/-- every character begins a piece -/
theorem exists_piece (c : Char) : ∃ k, Piece k [c] := by
  cases hword : isWordChar c with
  | true => exact ⟨.word, .word nofun (List.forall_mem_singleton.mpr hword)⟩
  | false =>
    by_cases hspace : isSpace c = true
    · exact ⟨.spaces, .spaces nofun (List.forall_mem_singleton.mpr hspace)⟩
    · have hc : c = '\n' ∨ c = '(' ∨ c = ')' ∨ c = '"' ∨ c = ';' := by
        have hnot := mt isWordChar_eq_true.mpr (Bool.eq_false_iff.mp hword)
        simpa [Decidable.or_iff_not_imp_left, hspace] using hnot
      rcases hc with rfl | rfl | rfl | rfl | rfl
      · exact ⟨_, .lineEnd⟩
      · exact ⟨_, .opening⟩
      · exact ⟨_, .closing⟩
      · exact ⟨_, .unclosed List.not_mem_nil⟩
      · exact ⟨_, .comment List.not_mem_nil⟩

/-- what is left of a source begins with a longest piece, which the scanner finds -/
theorem exists_next (c : Char) (cs : List Char) :
    ∃ k u rest, c :: cs = u ++ rest ∧ Longest k u rest ∧ next? (c :: cs) = some (k, u.length) := by
  have hpicked := pick_isPicked (c :: cs) Kind.all
  cases hnext : pick (c :: cs) Kind.all with
  | none =>
    rw [hnext] at hpicked
    obtain ⟨k, hk⟩ := exists_piece c
    exact absurd (Kind.matches_iff.mpr hk) (hpicked k k.mem_all [c] ⟨cs, rfl⟩)
  | some found =>
    obtain ⟨k, n⟩ := found
    rw [hnext] at hpicked
    obtain ⟨⟨u, ⟨rest, hcs⟩, rfl, hm⟩, hmax⟩ := hpicked
    refine ⟨k, u, rest, hcs.symm, ⟨hm, fun k' v hv hm' => ?_⟩, hnext⟩
    exact hmax k' k'.mem_all v (hcs ▸ hv) hm'

/-- Cutting a source into longest pieces, from a line on: each piece moves the line, and its token,
if it is one, is on the line reached. -/
inductive Pieces : Nat → List Char → List Placed → Prop where
  | nil {line : Nat} : Pieces line [] []
  | cons {k : Kind} {u rest : List Char} {line : Nat} {ps : List Placed} (hu : Longest k u rest)
      (h : Pieces (line + k.lineEnds u) rest ps) :
      Pieces line (u ++ rest) (k.placed u (line + k.lineEnds u) ++ ps)

theorem scanFrom_skip (line skip : Nat) (cs : List Char) :
    scanFrom line skip cs = scanFrom line 0 (cs.drop skip) := by
  induction cs generalizing skip with
  | nil => rw [List.drop_nil, scanFrom, scanFrom]
  | cons c cs ih =>
    cases skip with
    | zero => rfl
    | succ skip => exact ih skip

theorem scanFrom_longest {k : Kind} {u rest : List Char} (h : Longest k u rest) (line : Nat) :
    scanFrom line 0 (u ++ rest) =
      (scanFrom (line + k.lineEnds u) 0 rest).map (k.placed u (line + k.lineEnds u) ++ ·) := by
  obtain ⟨c, v, rfl, -⟩ := h.piece.exists_cons
  obtain ⟨k', u', rest', hcs, h', hnext⟩ := exists_next c (v ++ rest)
  obtain ⟨rfl, rfl, rfl⟩ := h.unique h' hcs
  have htake : (c :: v ++ rest).take (c :: v).length = c :: v := List.take_left' rfl
  have hdrop : (v ++ rest).drop ((c :: v).length - 1) = rest := List.drop_left' rfl
  rw [List.cons_append] at htake ⊢
  rw [scanFrom, hnext]
  simp only [htake]
  rw [scanFrom_skip, hdrop]
  cases scanFrom (line + k.lineEnds (c :: v)) 0 rest <;> rfl

theorem Pieces.scanFrom_eq {line : Nat} {cs : List Char} {ps : List Placed}
    (h : Pieces line cs ps) : scanFrom line 0 cs = .ok ps := by
  induction h with
  | nil => rfl
  | cons hu _ ih =>
    rw [scanFrom_longest hu, ih]
    rfl

theorem Pieces.eq_nil {line : Nat} {ps : List Placed} (h : Pieces line [] ps) : ps = [] :=
  (Except.ok.inj h.scanFrom_eq).symm

/-- the characters skipped are those of a piece, as in `scanFrom` -/
theorem exists_pieces (line skip : Nat) (cs : List Char) : ∃ ps, Pieces line (cs.drop skip) ps := by
  induction cs generalizing line skip with
  | nil =>
    rw [List.drop_nil]
    exact ⟨[], .nil⟩
  | cons c cs ih =>
    cases skip with
    | succ skip => exact ih line skip
    | zero =>
      obtain ⟨k, u, rest, hcs, hu, -⟩ := exists_next c cs
      obtain ⟨d, v, rfl, -⟩ := hu.piece.exists_cons
      obtain ⟨rfl, hrest⟩ := List.cons.inj hcs
      obtain ⟨ps, hps⟩ := ih (line + k.lineEnds (c :: v)) v.length
      rw [hrest, List.append_eq, List.drop_left' rfl] at hps
      rw [List.drop_zero, hcs]
      exact ⟨_, .cons hu hps⟩

/-- Scanning never fails, and cuts the source into longest pieces. -/
theorem scan_eq_ok (source : String) : ∃ ps, scan source = .ok ps ∧ Pieces 1 source.toList ps := by
  obtain ⟨ps, hps⟩ := exists_pieces 1 0 source.toList
  exact ⟨ps, hps.scanFrom_eq, hps⟩

end ChartLisp.Token
