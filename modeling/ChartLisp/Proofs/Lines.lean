import ChartLisp.Proofs.Layout

/-!
# The lines of tokens

The line of a token is one more than the number of line ends from the start of the source through
the last character of the token, wherever those line ends stand: between tokens, behind comments, in
strings before it or in the token itself.

* `Located n glued ts cs`   `cs`, which starts at offset `n` of a source, is laid out as the tokens
                            `ts`, each given with the offset right behind its last character
* `Laid.located`            every layout has such offsets
* `Located.pieces`          the pieces of the source count the line ends up to each token once
* `Located.sorted`          the offsets only go up
* `scan_lines`              the lines of all tokens of every source
-/

namespace ChartLisp.Token

/-- the line that the first `n` characters of a source end on -/
def lineAt (cs : List Char) (n : Nat) : Nat := 1 + (cs.take n).count '\n'

/-- A layout, as in `Laid`, with the place where each token ends. -/
inductive Located : Nat → Bool → List (Token × Nat) → List Char → Prop where
  | done {n : Nat} {glued : Bool} {w : List Char} (h : LastLayout w) : Located n glued [] w
  | unclosed {n : Nat} {glued : Bool} {w text : List Char} (hw : Layout w) (ht : '"' ∉ text) :
      Located n glued [(.unclosed, n + (w ++ '"' :: text).length)] (w ++ '"' :: text)
  | token {n : Nat} {glued : Bool} {w rest : List Char} {t : Token} {ts : List (Token × Nat)}
      (hw : Layout w) (ht : t.Proper) (hg : glued = true → t.isWord = true → w ≠ [])
      (h : Located (n + (w ++ t.text.toList).length) t.isWord ts rest) :
      Located n glued ((t, n + (w ++ t.text.toList).length) :: ts) (w ++ (t.text.toList ++ rest))

theorem Laid.located {glued : Bool} {ts : List Token} {cs : List Char} (h : Laid glued ts cs)
    (n : Nat) : ∃ ends, Located n glued ends cs := by
  induction h generalizing n with
  | done h => exact ⟨[], .done h⟩
  | unclosed hw ht => exact ⟨_, .unclosed hw ht⟩
  | @token _ w rest t _ hw ht hg _ ih =>
    obtain ⟨ends, hends⟩ := ih (n + (w ++ t.text.toList).length)
    exact ⟨_, .token hw ht hg hends⟩

namespace Located

variable {n : Nat} {glued : Bool} {ts : List (Token × Nat)} {cs : List Char}

theorem laid (h : Located n glued ts cs) : Laid glued (ts.map Prod.fst) cs := by
  induction h with
  | done h => exact .done h
  | unclosed hw ht => exact .unclosed hw ht
  | token hw ht hg _ ih => exact .token hw ht hg ih

/-- Cutting on from offset `n`, with the characters before it put back in front.  The line that is
reached there is the one of the offset. -/
theorem pieces (h : Located n glued ts cs) {before : List Char} (hn : before.length = n) :
    Pieces (1 + before.count '\n') cs (ts.map fun p => ⟨p.1, lineAt (before ++ cs) p.2⟩) := by
  induction h generalizing before with
  | done h => exact h.pieces _
  | @unclosed n _ w text hw ht =>
    have hlength : (before ++ (w ++ '"' :: text)).length = n + (w ++ '"' :: text).length := by
      rw [List.length_append, hn]
    have hline : lineAt (before ++ (w ++ '"' :: text)) (n + (w ++ '"' :: text).length) =
        1 + before.count '\n' + w.count '\n' + text.count '\n' := by
      rw [lineAt, ← hlength, List.take_length]
      simp [List.count_append, Nat.add_assoc]
    rw [List.map_singleton, hline]
    exact Pieces.layout hw (Pieces.unclosed ht _)
  | @token n _ w rest t ts hw ht _ hrest ih =>
    have hend : t.isWord = true → EndsWord rest := by
      intro hword
      have hlaid := hrest.laid
      rw [hword] at hlaid
      exact hlaid.endsWord
    have hlength : (before ++ (w ++ t.text.toList)).length = n + (w ++ t.text.toList).length := by
      rw [List.length_append, hn]
    have hcount : 1 + before.count '\n' + w.count '\n' + t.text.toList.count '\n' =
        1 + (before ++ (w ++ t.text.toList)).count '\n' := by
      simp [List.count_append, Nat.add_assoc]
    have hsplit : before ++ (w ++ (t.text.toList ++ rest)) =
        before ++ (w ++ t.text.toList) ++ rest := by
      simp [List.append_assoc]
    have hline : lineAt (before ++ (w ++ t.text.toList) ++ rest) (n + (w ++ t.text.toList).length) =
        1 + (before ++ (w ++ t.text.toList)).count '\n' := by
      rw [lineAt, List.take_left' hlength]
    have hpieces := ih hlength
    rw [← hcount] at hpieces
    rw [hsplit, List.map_cons, hline, ← hcount]
    exact Pieces.layout hw (Pieces.token ht hend hpieces)

theorem le_of_mem (h : Located n glued ts cs) : ∀ p ∈ ts, n ≤ p.2 := by
  induction h with
  | done _ => exact List.forall_mem_nil _
  | unclosed _ _ => exact List.forall_mem_singleton.mpr (Nat.le_add_right _ _)
  | token _ _ _ _ ih =>
    refine List.forall_mem_cons.mpr ⟨Nat.le_add_right _ _, fun p hp => ?_⟩
    exact Nat.le_trans (Nat.le_add_right _ _) (ih p hp)

theorem sorted (h : Located n glued ts cs) : ts.Pairwise fun p q => p.2 ≤ q.2 := by
  induction h with
  | done _ => exact .nil
  | unclosed _ _ => exact List.pairwise_singleton _ _
  | token _ _ _ hrest ih => exact .cons hrest.le_of_mem ih

end Located

theorem lineAt_le (cs : List Char) {m n : Nat} (h : m ≤ n) : lineAt cs m ≤ lineAt cs n := by
  have hsub : (cs.take m).Sublist (cs.take n) := (List.take_prefix_take_left h).sublist
  exact Nat.add_le_add_left (hsub.count_le '\n') 1

/-- Every source is scanned and laid out with places where its tokens end, and the line of each token
is the one that the characters up to its place end on.  So no token is on an earlier line than the
one before it. -/
theorem scan_lines (source : String) :
    ∃ ps, scan source = .ok ps ∧
      (∃ ends, Located 0 false ends source.toList) ∧
      (∀ ends, Located 0 false ends source.toList →
        ps = ends.map fun p => ⟨p.1, 1 + (source.toList.take p.2).count '\n'⟩) ∧
      (ps.map Placed.line).Pairwise (· ≤ ·) := by
  obtain ⟨ps, hscan, hpieces⟩ := scan_eq_ok source
  have hends : ∃ ends, Located 0 false ends source.toList := hpieces.laid.located 0
  have hlines : ∀ ends, Located 0 false ends source.toList →
      ps = ends.map fun p => ⟨p.1, lineAt source.toList p.2⟩ := by
    intro ends h
    have hpieces' := h.pieces (rfl : ([] : List Char).length = 0)
    exact Except.ok.inj (hscan.symm.trans hpieces'.scanFrom_eq)
  refine ⟨ps, hscan, hends, hlines, ?_⟩
  obtain ⟨ends, h⟩ := hends
  rw [hlines ends h, List.map_map]
  refine List.pairwise_map.mpr (h.sorted.imp fun hle => ?_)
  exact lineAt_le source.toList hle

example : (scan "(a ; b\n\"c\nd\" \n e\" f\n\n").map (·.map Placed.line) = .ok [1, 1, 3, 4, 6] := rfl

end ChartLisp.Token
