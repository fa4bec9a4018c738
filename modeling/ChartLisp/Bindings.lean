/-!
# Finite maps from names

A list of pairs in increasing order of the names, which is the order of code points.  Sorted, two
maps with the same entries are equal.

* `Bindings.get?`     the value of a name
* `Bindings.insert`   one more entry, or a new value for a name that has one
* `Bindings.overlay`  the entries of the first map, and those of the second that it lacks
-/

namespace ChartLisp

abbrev Bindings (α : Type) := List (String × α)

namespace Bindings

variable {α : Type}

def get? (b : Bindings α) (name : String) : Option α := List.lookup name b

def contains (b : Bindings α) (name : String) : Bool := (b.get? name).isSome

def insert (name : String) (value : α) : Bindings α → Bindings α
  | [] => [(name, value)]
  | (n, v) :: rest =>
    if name < n then (name, value) :: (n, v) :: rest
    else if name = n then (name, value) :: rest
    else (n, v) :: insert name value rest

/-- the map of the given pairs; of two pairs with one name the later counts -/
def ofList (pairs : List (String × α)) : Bindings α :=
  pairs.foldl (fun b p => insert p.1 p.2 b) []

/-- `inner` over `outer`: a name that both bind has its value in `inner` -/
def overlay (inner outer : Bindings α) : Bindings α :=
  inner.foldr (fun p b => insert p.1 p.2 b) outer

/-! ## What the operations do to the values of names -/

theorem get?_nil (n : String) : get? ([] : Bindings α) n = none := rfl

theorem get?_cons (k : String) (v : α) (b : Bindings α) (n : String) :
    get? ((k, v) :: b) n = if n = k then some v else get? b n := by
  unfold get?
  by_cases h : n = k
  · subst h
    simp
  · have hb : (n == k) = false := by simpa using h
    rw [List.lookup_cons, hb, if_neg h]

theorem get?_insert (k : String) (v : α) (b : Bindings α) (n : String) :
    get? (insert k v b) n = if n = k then some v else get? b n := by
  induction b with
  | nil => rw [insert, get?_cons]
  | cons p b ih =>
    obtain ⟨m, w⟩ := p
    rw [insert]
    by_cases hlt : k < m
    · rw [if_pos hlt, get?_cons]
    · rw [if_neg hlt]
      by_cases heq : k = m
      · subst heq
        rw [if_pos rfl, get?_cons, get?_cons]
        by_cases hn : n = k
        · rw [if_pos hn, if_pos hn]
        · rw [if_neg hn, if_neg hn, if_neg hn]
      · rw [if_neg heq, get?_cons, get?_cons, ih]
        by_cases hn : n = m
        · have hk : n ≠ k := fun h => heq (h.symm.trans hn)
          rw [if_pos hn, if_neg hk, if_pos hn]
        · rw [if_neg hn, if_neg hn]

theorem get?_overlay (inner outer : Bindings α) (n : String) :
    get? (overlay inner outer) n = (get? inner n).or (get? outer n) := by
  induction inner with
  | nil => rfl
  | cons p inner ih =>
    obtain ⟨k, v⟩ := p
    show get? (insert k v (overlay inner outer)) n = _
    rw [get?_insert, get?_cons, ih]
    by_cases h : n = k
    · rw [if_pos h, if_pos h]
      rfl
    · rw [if_neg h, if_neg h]

end Bindings

end ChartLisp
