import ChartLisp.Proofs.LongestMatch

/-!
# Scanning undoes the writing of tokens

A source is a sequence of tokens with layout between them: blanks, and comments that end with their
line.  The scanner finds the tokens of every source, and finds exactly those that were written.

* `Layout`, `LastLayout`   what may stand before a token, and what may end a source
* `Proper`                 tokens that a source can spell at every place
* `Laid glued ts cs`       `cs` is `w₀ t₁ w₁ … tₙ wₙ`, a string that is never closed at most at the
                           end; if `glued`, a word ends right before `cs`
* `Pieces.layout`, `Pieces.token`   how what is written is cut into pieces, and on which lines
* `Pieces.laid`            pieces are layout and tokens
* `scan_tokens_iff`        every source is scanned, and has the tokens that it is laid out from
-/

namespace ChartLisp.Token

def isBlank (c : Char) : Bool :=
  c = ' ' || c = '\t' || c = '\r' || c = '\n' || c = '\x0c' || c = '\x0b'

/-- blanks and comments, every comment with the end of its line -/
inductive Layout : List Char → Prop where
  | nil : Layout []
  | blank {c : Char} {w : List Char} (hc : isBlank c = true) (h : Layout w) : Layout (c :: w)
  | comment {text w : List Char} (ht : '\n' ∉ text) (h : Layout w) :
      Layout (';' :: (text ++ '\n' :: w))

/-- layout in which a comment may end with the source instead -/
inductive LastLayout : List Char → Prop where
  | closed {w : List Char} (h : Layout w) : LastLayout w
  | comment {w text : List Char} (h : Layout w) (ht : '\n' ∉ text) : LastLayout (w ++ ';' :: text)

def isWord : Token → Bool
  | .word _ => true
  | _ => false

def Proper : Token → Prop
  | .opening => True
  | .closing => True
  | .string s => '"' ∉ s.toList
  | .word s => s.toList ≠ [] ∧ ∀ c ∈ s.toList, isWordChar c = true
  | .unclosed => False
  | .blank => False

/-- A source, or the rest of one behind a token.  Two words have layout between them. -/
inductive Laid : Bool → List Token → List Char → Prop where
  | done {glued : Bool} {w : List Char} (h : LastLayout w) : Laid glued [] w
  | unclosed {glued : Bool} {w text : List Char} (hw : Layout w) (ht : '"' ∉ text) :
      Laid glued [.unclosed] (w ++ '"' :: text)
  | token {glued : Bool} {w rest : List Char} {t : Token} {ts : List Token} (hw : Layout w)
      (ht : t.Proper) (hg : glued = true → t.isWord = true → w ≠ []) (h : Laid t.isWord ts rest) :
      Laid glued (t :: ts) (w ++ (t.text.toList ++ rest))

/-! ## Characters -/

theorem isBlank_eq_true {c : Char} :
    isBlank c = true ↔
      c = ' ' ∨ c = '\t' ∨ c = '\r' ∨ c = '\n' ∨ c = '\x0c' ∨ c = '\x0b' := by
  simp [isBlank, or_assoc]

theorem isBlank_iff {c : Char} : isBlank c = true ↔ isSpace c = true ∨ c = '\n' := by
  rw [isBlank_eq_true, isSpace, List.contains_iff_mem]
  simp only [List.mem_cons, List.not_mem_nil, or_false]
  grind

theorem isWordChar_eq_false {c : Char} :
    isWordChar c = false ↔ isBlank c = true ∨ c = '(' ∨ c = ')' ∨ c = '"' ∨ c = ';' := by
  rw [← Bool.not_eq_true, isWordChar_eq_true, isBlank_iff]
  grind

theorem not_isWordChar_of_isBlank {c : Char} (h : isBlank c = true) : isWordChar c = false :=
  isWordChar_eq_false.mpr (.inl h)

theorem ne_lineEnd_of_isSpace {c : Char} (h : isSpace c = true) : c ≠ '\n' := by
  rintro rfl
  cases h

/-! ## What follows a word -/

theorem endsWord_cons {c : Char} (h : isWordChar c = false) (cs : List Char) : EndsWord (c :: cs) := by
  intro d hd
  cases hd
  exact h

theorem string_text_append (s : String) (cs : List Char) :
    (Token.string s).text.toList ++ cs = '"' :: (s.toList ++ '"' :: cs) := by
  simp [text]

theorem Layout.endsWord {w cs : List Char} (hw : Layout w) (h : w = [] → EndsWord cs) :
    EndsWord (w ++ cs) := by
  cases hw with
  | nil => exact h rfl
  | blank hc _ => exact endsWord_cons (not_isWordChar_of_isBlank hc) _
  | comment _ _ => exact endsWord_cons rfl _

theorem LastLayout.endsWord {w : List Char} (hw : LastLayout w) : EndsWord w := by
  cases hw with
  | closed h =>
    rw [← List.append_nil w]
    exact h.endsWord fun _ _ hd => nomatch hd
  | comment h _ => exact h.endsWord fun _ => endsWord_cons rfl _

theorem Proper.endsWord {t : Token} (ht : t.Proper) (hw : t.isWord = false) (cs : List Char) :
    EndsWord (t.text.toList ++ cs) := by
  cases t with
  | opening | closing => exact endsWord_cons rfl cs
  | string s =>
    rw [string_text_append]
    exact endsWord_cons rfl _
  | word s => cases hw
  | unclosed | blank => exact ht.elim

/-- what follows a word does not go on with it -/
theorem Laid.endsWord {ts : List Token} {cs : List Char} (h : Laid true ts cs) : EndsWord cs := by
  cases h with
  | done h => exact h.endsWord
  | unclosed hw _ => exact hw.endsWord fun _ => endsWord_cons rfl _
  | @token _ w rest t _ hw ht hg _ =>
    refine hw.endsWord fun hnil => ht.endsWord ?_ rest
    cases ht' : t.isWord with
    | false => rfl
    | true => exact absurd hnil (hg rfl ht')

/-! ## What is written is found -/

/-- a space more makes a run of spaces longer, or is one -/
theorem Pieces.space {c : Char} (hc : isSpace c = true) {line : Nat} {cs : List Char}
    {ps : List Placed} (h : Pieces line cs ps) : Pieces line (c :: cs) ps := by
  have hone : Kind.spaces.pattern.Matches [c] :=
    Pattern.matches_plus.mpr ⟨nofun, List.forall_mem_singleton.mpr hc⟩
  cases h with
  | nil =>
    have hrest : ∀ d, ([] : List Char).head? = some d → isSpace d = false := by simp
    exact .cons (longest_plus rfl (by decide) (by decide) hone hrest) .nil
  | @cons k u rest line ps hu hrest =>
    by_cases hk : k = .spaces
    · subst hk
      exact .cons (hu.cons_space hc) hrest
    · refine .cons (longest_plus rfl (by decide) (by decide) hone fun d hd => ?_) (.cons hu hrest)
      exact hu.piece.isSpace_head hk (by simpa using hd)

/-- layout only moves the line -/
theorem Pieces.layout {w : List Char} (hw : Layout w) {line : Nat} {cs : List Char}
    {ps : List Placed} (h : Pieces (line + w.count '\n') cs ps) : Pieces line (w ++ cs) ps := by
  induction hw generalizing line with
  | nil => exact h
  | @blank c w hc _ ih =>
    rcases isBlank_iff.mp hc with hspace | rfl
    · rw [List.count_cons_of_ne (ne_lineEnd_of_isSpace hspace)] at h
      exact (ih h).space hspace
    · rw [List.count_cons_self, ← Nat.add_assoc, Nat.add_right_comm] at h
      exact .cons (longest_char (k := .lineEnd) rfl _) (ih h)
  | @comment text w ht _ ih =>
    have hcount : (';' :: (text ++ '\n' :: w)).count '\n' = w.count '\n' + 1 := by
      simp [List.count_append, List.count_eq_zero_of_not_mem ht]
    rw [hcount, ← Nat.add_assoc, Nat.add_right_comm] at h
    have hline : Pieces line ('\n' :: (w ++ cs)) ps :=
      .cons (longest_char (k := .lineEnd) rfl _) (ih h)
    have hcomment : Longest .comment (';' :: text) ('\n' :: (w ++ cs)) :=
      longest_comment ht fun c hc => (Option.some.inj hc).symm
    simpa [Kind.placed, Kind.token?] using Pieces.cons hcomment hline

/-- a token is found on the line that its last character is on -/
theorem Pieces.token {t : Token} (ht : t.Proper) {line : Nat} {cs : List Char} {ps : List Placed}
    (hend : t.isWord = true → EndsWord cs)
    (h : Pieces (line + t.text.toList.count '\n') cs ps) :
    Pieces line (t.text.toList ++ cs) (⟨t, line + t.text.toList.count '\n'⟩ :: ps) := by
  cases t with
  | opening => exact .cons (longest_char (k := .opening) rfl cs) h
  | closing => exact .cons (longest_char (k := .closing) rfl cs) h
  | string s =>
    have htext : (Token.string s).text.toList = '"' :: (s.toList ++ ['"']) := by simp [text]
    rw [htext] at h ⊢
    have hpieces := Pieces.cons (longest_string ht cs) h
    simpa [Kind.placed, Kind.token?, Kind.lineEnds] using hpieces
  | word s =>
    have hcount : s.toList.count '\n' = 0 := by
      refine List.count_eq_zero_of_not_mem fun hm => ?_
      cases ht.2 '\n' hm
    have hword : Longest .word s.toList cs :=
      longest_plus rfl (by decide) (by decide) (Pattern.matches_plus.mpr ht) (hend rfl)
    simp only [text, hcount] at h ⊢
    have hpieces := Pieces.cons hword h
    simpa [Kind.placed, Kind.token?, Kind.lineEnds] using hpieces
  | unclosed | blank => exact ht.elim

/-- a string that is never closed is found on the last line of the source -/
theorem Pieces.unclosed {text : List Char} (ht : '"' ∉ text) (line : Nat) :
    Pieces line ('"' :: text) [⟨.unclosed, line + text.count '\n'⟩] := by
  have hnil : Pieces (line + Kind.lineEnds ('"' :: text) .unclosed) [] [] := .nil
  simpa [Kind.placed, Kind.token?, Kind.lineEnds] using Pieces.cons (longest_unclosed ht) hnil

theorem LastLayout.pieces {w : List Char} (hw : LastLayout w) (line : Nat) : Pieces line w [] := by
  cases hw with
  | closed h =>
    rw [← List.append_nil w]
    exact Pieces.layout h .nil
  | comment h ht =>
    refine Pieces.layout h ?_
    have hcomment := longest_comment ht fun c (hc : [].head? = some c) => by simp at hc
    simpa [Kind.placed, Kind.token?] using Pieces.cons hcomment .nil

theorem Laid.pieces {glued : Bool} {ts : List Token} {cs : List Char} (h : Laid glued ts cs)
    (line : Nat) : ∃ ps, Pieces line cs ps ∧ ps.map Placed.token = ts := by
  induction h generalizing line with
  | done h => exact ⟨[], h.pieces line, rfl⟩
  | unclosed hw ht => exact ⟨_, Pieces.layout hw (Pieces.unclosed ht _), rfl⟩
  | @token _ w rest t ts hw ht _ hrest ih =>
    have hend : t.isWord = true → EndsWord rest := by
      intro hword
      rw [hword] at hrest
      exact hrest.endsWord
    obtain ⟨ps, hps, htokens⟩ := ih (line + w.count '\n' + t.text.toList.count '\n')
    exact ⟨_, Pieces.layout hw (Pieces.token ht hend hps), congrArg (t :: ·) htokens⟩

/-! ## What is found was written -/

theorem Layout.append {w w' : List Char} (h : Layout w) (h' : Layout w') : Layout (w ++ w') := by
  induction h with
  | nil => exact h'
  | blank hc _ ih => exact .blank hc ih
  | @comment text w ht _ ih =>
    rw [List.cons_append, List.append_assoc]
    exact .comment ht ih

theorem LastLayout.prepend {w w' : List Char} (h : Layout w) (h' : LastLayout w') :
    LastLayout (w ++ w') := by
  cases h' with
  | closed h' => exact .closed (h.append h')
  | comment h' ht =>
    rw [← List.append_assoc]
    exact .comment (h.append h') ht

theorem Laid.prepend {w cs : List Char} {ts : List Token} (hw : Layout w)
    (h : Laid false ts cs) : Laid false ts (w ++ cs) := by
  cases h with
  | done h => exact .done (h.prepend hw)
  | unclosed hw' ht =>
    rw [← List.append_assoc]
    exact .unclosed (hw.append hw') ht
  | token hw' ht _ h =>
    rw [← List.append_assoc]
    exact .token (hw.append hw') ht nofun h

/-- behind a word stands no second word -/
theorem Laid.glue {cs : List Char} {ts : List Token} (h : Laid false ts cs) (hcs : EndsWord cs) :
    Laid true ts cs := by
  cases h with
  | done h => exact .done h
  | unclosed hw ht => exact .unclosed hw ht
  | @token _ w rest t ts hw ht _ h =>
    refine .token hw ht (fun _ hword hnil => ?_) h
    subst hnil
    cases t with
    | word s =>
      obtain ⟨hne, hall⟩ := ht
      cases hs : s.toList with
      | nil => exact hne hs
      | cons c cs =>
        have hc : isWordChar c = false := hcs c (by simp [text, hs])
        rw [hall c (hs ▸ List.mem_cons_self)] at hc
        cases hc
    | opening | closing | string _ | unclosed | blank => cases hword

theorem Laid.token_first {t : Token} {ts : List Token} {cs : List Char} (ht : t.Proper)
    (h : Laid t.isWord ts cs) : Laid false (t :: ts) (t.text.toList ++ cs) :=
  .token .nil ht nofun h

/-- a run of spaces is layout -/
theorem layout_of_isSpace {w : List Char} (h : ∀ c ∈ w, isSpace c = true) : Layout w := by
  induction w with
  | nil => exact .nil
  | cons c w ih =>
    obtain ⟨hc, hw⟩ := List.forall_mem_cons.mp h
    exact .blank (isBlank_iff.mpr (.inl hc)) (ih hw)

theorem Laid.word_first {u : List Char} (hu : Piece .word u) {ts : List Token} {cs : List Char}
    (h : Laid false ts cs) (hcs : EndsWord cs) :
    Laid false (.word (String.ofList u) :: ts) (u ++ cs) := by
  have ht : (Token.word (String.ofList u)).Proper := by
    cases hu with
    | word hne hall => simpa [Proper] using ⟨hne, hall⟩
  simpa [text] using Laid.token_first ht (h.glue hcs)

theorem Laid.string_first {u : List Char} (hu : '"' ∉ u) {ts : List Token} {cs : List Char}
    (h : Laid false ts cs) :
    Laid false (.string (String.ofList u) :: ts) ('"' :: (u ++ ['"']) ++ cs) := by
  have ht : (Token.string (String.ofList u)).Proper := by simpa [Proper] using hu
  simpa [text] using Laid.token_first ht h

/-- A comment is layout only together with the line end behind it, which is a piece of its own, so
the layout behind a line end is followed along. -/
theorem Pieces.laid_and {line : Nat} {cs : List Char} {ps : List Placed} (h : Pieces line cs ps) :
    Laid false (ps.map Placed.token) cs ∧
      ∀ r, cs = '\n' :: r → Laid false (ps.map Placed.token) r := by
  induction h with
  | nil => exact ⟨.done (.closed .nil), nofun⟩
  | @cons k u rest line ps hu hps ih =>
    obtain ⟨hrest, hline⟩ := ih
    refine ⟨?_, fun r hr => ?_⟩
    · cases hu.piece with
      | opening => exact Laid.token_first (t := .opening) trivial hrest
      | closing => exact Laid.token_first (t := .closing) trivial hrest
      | string ht => simpa [Kind.placed, Kind.token?] using Laid.string_first ht hrest
      | unclosed ht =>
        obtain rfl := hu.of_unclosed ht
        obtain rfl := hps.eq_nil
        simpa [Kind.placed, Kind.token?] using Laid.unclosed .nil ht
      | word hne hall => exact Laid.word_first (.word hne hall) hrest fun c hc => hu.head_of_plus rfl hc
      | @comment text ht =>
        rcases hu.of_comment ht with rfl | ⟨r, rfl⟩
        · obtain rfl := hps.eq_nil
          simpa [Kind.placed, Kind.token?] using Laid.done (.comment .nil ht)
        · simpa [Kind.placed, Kind.token?] using Laid.prepend (.comment ht .nil) (hline r rfl)
      | lineEnd => exact Laid.prepend (.blank rfl .nil) hrest
      | spaces _ hall => exact Laid.prepend (layout_of_isSpace hall) hrest
    · obtain ⟨rfl, rfl, rfl⟩ := hu.unique (longest_char (k := .lineEnd) rfl r) hr
      exact hrest

theorem Pieces.laid {line : Nat} {cs : List Char} {ps : List Placed} (h : Pieces line cs ps) :
    Laid false (ps.map Placed.token) cs :=
  h.laid_and.1

theorem Laid.blank_notMem {glued : Bool} {ts : List Token} {cs : List Char} (h : Laid glued ts cs) :
    Token.blank ∉ ts := by
  induction h with
  | done _ => exact List.not_mem_nil
  | unclosed _ _ => simp
  | @token _ _ _ t _ _ ht _ _ ih =>
    have hne : Token.blank ≠ t := by
      rintro rfl
      exact ht
    exact List.not_mem_cons_of_ne_of_not_mem hne ih

theorem scan_ne_blank {source : String} {ps : List Placed} (h : scan source = .ok ps) :
    ∀ t ∈ ps, t.token ≠ .blank := by
  intro t ht hb
  obtain ⟨ps', hscan, hpieces⟩ := scan_eq_ok source
  obtain rfl := Except.ok.inj (h.symm.trans hscan)
  exact hpieces.laid.blank_notMem (List.mem_map.mpr ⟨t, ht, hb⟩)

theorem Laid.scan_eq {ts : List Token} {source : String} (h : Laid false ts source.toList) :
    ∃ ps, scan source = .ok ps ∧ ps.map Placed.token = ts := by
  obtain ⟨ps, hps, htokens⟩ := h.pieces 1
  exact ⟨ps, hps.scanFrom_eq, htokens⟩

/-- Every source has its tokens: those of its longest pieces, which it is laid out from, and no
other tokens give this source. -/
theorem scan_tokens_iff (source : String) :
    ∃ ps, scan source = .ok ps ∧ Pieces 1 source.toList ps ∧
      ∀ ts, ps.map Placed.token = ts ↔ Laid false ts source.toList := by
  obtain ⟨ps, hscan, hpieces⟩ := scan_eq_ok source
  refine ⟨ps, hscan, hpieces, fun ts => ⟨?_, fun hlaid => ?_⟩⟩
  · rintro rfl
    exact hpieces.laid
  · obtain ⟨ps', hscan', htokens⟩ := hlaid.scan_eq
    obtain rfl := Except.ok.inj (hscan.symm.trans hscan')
    exact htokens

example : (scan "a\"(b\";\"\n(c").map (·.map Placed.token) =
    .ok [.word "a", .string "(b", .opening, .word "c"] :=
  rfl

end ChartLisp.Token
