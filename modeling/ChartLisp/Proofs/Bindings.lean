import ChartLisp.Bindings
import Mathlib.Data.String.Basic

/-!
# Maps from names are determined by the values they give

* `Sorted`            the names stand in increasing order, so each stands once
* `sorted_insert`, `sorted_overlay`   the operations keep the order
* `eq_of_get?_eq`     sorted maps that give every name the same value are the same map
* `mem_insert`, `mem_overlay`   where the entries of a map come from
* `mapValues f`       the same names with their values under `f`; every operation commutes with it
-/

namespace ChartLisp.Bindings

variable {α β : Type}

/-- the names stand in increasing order -/
def Sorted (b : Bindings α) : Prop := b.Pairwise fun p q => p.1 < q.1

theorem mem_insert {k : String} {v : α} {b : Bindings α} {p : String × α}
    (h : p ∈ insert k v b) : p = (k, v) ∨ p ∈ b := by
  induction b with
  | nil => exact .inl (List.mem_singleton.mp h)
  | cons q b ih =>
    obtain ⟨n, w⟩ := q
    rw [insert] at h
    by_cases hlt : k < n
    · rw [if_pos hlt] at h
      exact List.mem_cons.mp h
    · rw [if_neg hlt] at h
      by_cases heq : k = n
      · rw [if_pos heq] at h
        rcases List.mem_cons.mp h with h | h
        · exact .inl h
        · exact .inr (List.mem_cons_of_mem _ h)
      · rw [if_neg heq] at h
        rcases List.mem_cons.mp h with h | h
        · exact .inr (h ▸ List.mem_cons_self)
        · rcases ih h with h | h
          · exact .inl h
          · exact .inr (List.mem_cons_of_mem _ h)

theorem mem_overlay {inner outer : Bindings α} {p : String × α} (h : p ∈ overlay inner outer) :
    p ∈ inner ∨ p ∈ outer := by
  induction inner with
  | nil => exact .inr h
  | cons q inner ih =>
    rcases mem_insert h with h | h
    · exact .inl (h ▸ List.mem_cons_self)
    · rcases ih h with h | h
      · exact .inl (List.mem_cons_of_mem _ h)
      · exact .inr h

theorem mem_of_get? {b : Bindings α} {n : String} {v : α} (h : get? b n = some v) :
    (n, v) ∈ b := by
  induction b with
  | nil => cases h
  | cons q b ih =>
    obtain ⟨k, w⟩ := q
    rw [get?_cons] at h
    by_cases hn : n = k
    · rw [if_pos hn] at h
      cases h
      exact hn ▸ List.mem_cons_self
    · rw [if_neg hn] at h
      exact List.mem_cons_of_mem _ (ih h)

theorem contains_insert {k n : String} {v : α} {b : Bindings α} :
    contains (insert k v b) n = true ↔ n = k ∨ contains b n = true := by
  unfold contains
  rw [get?_insert]
  by_cases h : n = k
  · simp [h]
  · simp [h]

/-! ## Order -/

theorem sorted_insert {k : String} {v : α} {b : Bindings α} (h : Sorted b) :
    Sorted (insert k v b) := by
  induction b with
  | nil => exact List.pairwise_singleton _ _
  | cons q b ih =>
    obtain ⟨n, w⟩ := q
    obtain ⟨hn, hb⟩ := List.pairwise_cons.mp h
    rw [insert]
    by_cases hlt : k < n
    · rw [if_pos hlt]
      refine List.pairwise_cons.mpr ⟨fun p hp => ?_, h⟩
      rcases List.mem_cons.mp hp with rfl | hp
      · exact hlt
      · exact lt_trans hlt (hn p hp)
    · rw [if_neg hlt]
      by_cases heq : k = n
      · rw [if_pos heq, heq]
        exact List.pairwise_cons.mpr ⟨hn, hb⟩
      · rw [if_neg heq]
        refine List.pairwise_cons.mpr ⟨fun p hp => ?_, ih hb⟩
        rcases mem_insert hp with rfl | hp
        · exact lt_of_le_of_ne (not_lt.mp hlt) (Ne.symm heq)
        · exact hn p hp

theorem sorted_overlay (inner : Bindings α) {outer : Bindings α} (h : Sorted outer) :
    Sorted (overlay inner outer) := by
  induction inner with
  | nil => exact h
  | cons p inner ih => exact sorted_insert ih

/-- a name below all names of a map has no value in it -/
theorem get?_eq_none_of_lt {b : Bindings α} {n : String} (h : ∀ p ∈ b, n < p.1) :
    get? b n = none := by
  induction b with
  | nil => rfl
  | cons q b ih =>
    obtain ⟨k, w⟩ := q
    have hk : n < k := h (k, w) List.mem_cons_self
    rw [get?_cons, if_neg (ne_of_lt hk)]
    exact ih fun p hp => h p (List.mem_cons_of_mem _ hp)

theorem get?_eq_none_of_lt_head {k n : String} {w : α} {b : Bindings α} (h : Sorted ((k, w) :: b))
    (hlt : n < k) : get? ((k, w) :: b) n = none := by
  refine get?_eq_none_of_lt fun p hp => ?_
  rcases List.mem_cons.mp hp with rfl | hp
  · exact hlt
  · exact lt_trans hlt ((List.pairwise_cons.mp h).1 p hp)

/-- Sorted maps with the same values are the same map. -/
theorem eq_of_get?_eq {b c : Bindings α} (hb : Sorted b) (hc : Sorted c)
    (h : ∀ n, get? b n = get? c n) : b = c := by
  induction b generalizing c with
  | nil =>
    cases c with
    | nil => rfl
    | cons q c =>
      have hq := h q.1
      rw [get?_cons, if_pos rfl] at hq
      cases hq
  | cons p b ih =>
    obtain ⟨n, v⟩ := p
    obtain ⟨hn, hb'⟩ := List.pairwise_cons.mp hb
    cases c with
    | nil =>
      have hp := h n
      rw [get?_cons, if_pos rfl] at hp
      cases hp
    | cons q c =>
      obtain ⟨k, w⟩ := q
      obtain ⟨hk, hc'⟩ := List.pairwise_cons.mp hc
      -- the least name of one map has a value in the other, so neither is below the other
      have hnk : n = k := by
        rcases lt_trichotomy n k with hlt | heq | hgt
        · have hnone := get?_eq_none_of_lt_head hc hlt
          rw [← h n, get?_cons, if_pos rfl] at hnone
          cases hnone
        · exact heq
        · have hnone := get?_eq_none_of_lt_head hb hgt
          rw [h k, get?_cons, if_pos rfl] at hnone
          cases hnone
      subst hnk
      have hvw := h n
      rw [get?_cons, if_pos rfl, get?_cons, if_pos rfl] at hvw
      cases hvw
      refine congrArg _ (ih hb' hc' fun m => ?_)
      by_cases hm : m = n
      · rw [hm, get?_eq_none_of_lt hn, get?_eq_none_of_lt hk]
      · have hm' := h m
        rwa [get?_cons, if_neg hm, get?_cons, if_neg hm] at hm'

theorem overlay_nil {b : Bindings α} (h : Sorted b) : overlay b [] = b := by
  refine eq_of_get?_eq (sorted_overlay b List.Pairwise.nil) h fun n => ?_
  rw [get?_overlay, get?_nil, Option.or_none]

theorem overlay_insert {k : String} {v : α} {inner outer : Bindings α} (h : Sorted outer) :
    overlay (insert k v inner) outer = insert k v (overlay inner outer) := by
  refine eq_of_get?_eq (sorted_overlay _ h) (sorted_insert (sorted_overlay _ h)) fun n => ?_
  rw [get?_overlay, get?_insert, get?_insert, get?_overlay]
  by_cases hn : n = k
  · rw [if_pos hn, if_pos hn, Option.some_or]
  · rw [if_neg hn, if_neg hn]

/-! ## Values under a function -/

def mapValues (f : α → β) (b : Bindings α) : Bindings β := b.map fun p => (p.1, f p.2)

theorem mapValues_id (b : Bindings α) : mapValues id b = b := List.map_id b

theorem get?_mapValues (f : α → β) (b : Bindings α) (n : String) :
    get? (mapValues f b) n = (get? b n).map f := by
  induction b with
  | nil => rfl
  | cons p b ih =>
    obtain ⟨k, v⟩ := p
    show get? ((k, f v) :: mapValues f b) n = _
    rw [get?_cons, get?_cons, ih]
    by_cases hn : n = k
    · rw [if_pos hn, if_pos hn, Option.map_some]
    · rw [if_neg hn, if_neg hn]

theorem mapValues_insert (f : α → β) (k : String) (v : α) (b : Bindings α) :
    mapValues f (insert k v b) = insert k (f v) (mapValues f b) := by
  induction b with
  | nil => rfl
  | cons p b ih =>
    obtain ⟨n, w⟩ := p
    show _ = insert k (f v) ((n, f w) :: mapValues f b)
    rw [insert, insert]
    by_cases hlt : k < n
    · rw [if_pos hlt, if_pos hlt]
      rfl
    · rw [if_neg hlt, if_neg hlt]
      by_cases heq : k = n
      · rw [if_pos heq, if_pos heq]
        rfl
      · rw [if_neg heq, if_neg heq, ← ih]
        rfl

theorem mapValues_overlay (f : α → β) (inner outer : Bindings α) :
    mapValues f (overlay inner outer) = overlay (mapValues f inner) (mapValues f outer) := by
  induction inner with
  | nil => rfl
  | cons p inner ih =>
    show mapValues f (insert p.1 p.2 (overlay inner outer)) =
      insert p.1 (f p.2) (overlay (mapValues f inner) (mapValues f outer))
    rw [mapValues_insert, ih]

end ChartLisp.Bindings
