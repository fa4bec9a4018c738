import ChartLisp.Proofs.Scope

/-!
# What a chain of scopes shows of a name

A lookup walks outwards through the scopes and ends at the root.  A closure keeps what such a walk
collects before it comes to the root, so it can do without the scopes: a name has its value there
or at the root.

* `Bindings.names`            the names that have an entry
* `Bindings.adopt`            the entries of a further map, for names that have none so far
* `Scope.collected`           what a walk outwards adopts from each scope above the root
* `collected_eq_flattened`    it is the flattened view
* `lookup_child`              a lookup, scope by scope
* `mem_flattened_iff`         the entries are those of the innermost scopes that bind their names
* `lookup_factors`            a lookup through the view and the root
-/

namespace ChartLisp

namespace Bindings

variable {α : Type}

def names (b : Bindings α) : List String := b.map Prod.fst

/-- a name that is bound already keeps its value -/
def adopt (seen b : Bindings α) : Bindings α :=
  b.foldl (fun seen p => if seen.contains p.1 then seen else seen.insert p.1 p.2) seen

theorem mem_names_iff {b : Bindings α} {n : String} : n ∈ b.names ↔ (b.get? n).isSome = true := by
  induction b with
  | nil => exact ⟨nofun, nofun⟩
  | cons p b ih =>
    obtain ⟨k, v⟩ := p
    rw [get?_cons]
    show n ∈ k :: names b ↔ _
    rw [List.mem_cons, ih]
    by_cases hn : n = k
    · simp [hn]
    · simp [hn]

theorem mem_iff_get? {b : Bindings α} (hb : b.Sorted) {n : String} {v : α} :
    (n, v) ∈ b ↔ b.get? n = some v := by
  refine ⟨fun hmem => ?_, mem_of_get?⟩
  induction b with
  | nil => cases hmem
  | cons p b ih =>
    obtain ⟨k, w⟩ := p
    obtain ⟨hk, hb⟩ := List.pairwise_cons.mp hb
    rw [get?_cons]
    rcases List.mem_cons.mp hmem with heq | hmem
    · cases heq
      rw [if_pos rfl]
    · have hne : n ≠ k := ne_of_gt (hk (n, v) hmem)
      rw [if_neg hne, ih hb hmem]

theorem adopt_cons (seen : Bindings α) (k : String) (v : α) (b : Bindings α) :
    adopt seen ((k, v) :: b) =
      adopt (if seen.contains k then seen else seen.insert k v) b := rfl

theorem get?_adopt (seen b : Bindings α) (n : String) :
    get? (adopt seen b) n = (get? seen n).or (get? b n) := by
  induction b generalizing seen with
  | nil => exact Option.or_none.symm
  | cons p b ih =>
    obtain ⟨k, v⟩ := p
    rw [adopt_cons, ih, get?_cons]
    by_cases hk : seen.contains k = true
    · rw [if_pos hk]
      by_cases hn : n = k
      · obtain ⟨w, hw⟩ := Option.isSome_iff_exists.mp hk
        rw [hn, hw]
        rfl
      · rw [if_neg hn]
    · rw [if_neg hk, get?_insert]
      by_cases hn : n = k
      · have hnone : get? seen k = none := Option.not_isSome_iff_eq_none.mp hk
        rw [if_pos hn, if_pos hn, hn, hnone]
        rfl
      · rw [if_neg hn, if_neg hn]

theorem sorted_adopt {seen : Bindings α} (h : seen.Sorted) (b : Bindings α) :
    (adopt seen b).Sorted := by
  induction b generalizing seen with
  | nil => exact h
  | cons p b ih =>
    rw [adopt_cons]
    split
    · exact ih h
    · exact ih (sorted_insert h)

end Bindings

namespace Scope

open Bindings (adopt)

/-- what the scopes above the root bind, the first value of a name on the way outwards -/
def collected (s : Scope) : Bindings Expr := s.locals.foldl adopt []

/-! ## The walk outwards -/

theorem get?_foldl_adopt (ms : List (Bindings Expr)) (seen : Bindings Expr) (name : String) :
    Bindings.get? (ms.foldl adopt seen) name =
      (seen.get? name).or (ms.findSome? (Bindings.get? · name)) := by
  induction ms generalizing seen with
  | nil => exact Option.or_none.symm
  | cons m ms ih =>
    rw [List.foldl_cons, ih, Bindings.get?_adopt, List.findSome?_cons, Option.or_assoc]
    cases Bindings.get? m name <;> rfl

theorem sorted_foldl_adopt (ms : List (Bindings Expr)) {seen : Bindings Expr} (h : seen.Sorted) :
    Bindings.Sorted (ms.foldl adopt seen) := by
  induction ms generalizing seen with
  | nil => exact h
  | cons m ms ih => exact ih (Bindings.sorted_adopt h m)

/-- Keeping the first value on the way outwards is the same as letting inner values hide outer
ones. -/
theorem collected_eq_flattened (s : Scope) : s.collected = s.flattened := by
  have hsorted : s.collected.Sorted := sorted_foldl_adopt s.locals List.Pairwise.nil
  refine Bindings.eq_of_get?_eq hsorted s.sorted_flattened fun name => ?_
  rw [get?_flattened]
  exact get?_foldl_adopt s.locals [] name

theorem lookup_child (s : Scope) (m : Bindings Expr) (name : String) :
    (s.child m).lookup name = (m.get? name).or (s.lookup name) := by
  have hview : (s.child m).flattened = Bindings.overlay m s.flattened := rfl
  rw [lookup_eq, lookup_eq, hview, Bindings.get?_overlay, Option.or_assoc]
  rfl

theorem lookup_atRoot (s : Scope) (name : String) : s.atRoot.lookup name = s.root.get? name := rfl

/-! ## The view -/

theorem mem_flattened_iff (s : Scope) (name : String) (v : Expr) :
    (name, v) ∈ s.flattened ↔ ∃ inner m outer, s.locals = inner ++ m :: outer ∧
      (∀ i ∈ inner, name ∉ Bindings.names i) ∧ Bindings.get? m name = some v := by
  rw [Bindings.mem_iff_get? s.sorted_flattened, get?_flattened, List.findSome?_eq_some_iff]
  simp only [Bindings.mem_names_iff, Bool.not_eq_true, Option.isSome_eq_false_iff,
    Option.isNone_iff_eq_none]
  constructor
  · rintro ⟨inner, m, outer, hlocals, hm, hinner⟩
    exact ⟨inner, m, outer, hlocals, hinner, hm⟩
  · rintro ⟨inner, m, outer, hlocals, hinner, hm⟩
    exact ⟨inner, m, outer, hlocals, hm, hinner⟩

theorem mem_names_flattened_iff (s : Scope) (name : String) :
    name ∈ s.flattened.names ↔ ∃ m ∈ s.locals, name ∈ Bindings.names m := by
  simp only [Bindings.mem_names_iff, get?_flattened]
  rw [List.findSome?_isSome_iff]

/-- A name has its value in the captured view or else at the root; the view has an entry for each
name that is bound above the root, with the value of the innermost scope that binds it, and a scope
made of it alone shows every name as the chain does. -/
theorem lookup_factors (s : Scope) (name : String) :
    s.lookup name = (s.flattened.get? name).or (s.atRoot.lookup name) ∧
      (name ∈ s.flattened.names ↔ ∃ m ∈ s.locals, name ∈ Bindings.names m) ∧
      (∀ v, (name, v) ∈ s.flattened ↔ ∃ inner m outer, s.locals = inner ++ m :: outer ∧
        (∀ i ∈ inner, name ∉ Bindings.names i) ∧ Bindings.get? m name = some v) ∧
      s.flattened = s.collected ∧
      (s.atRoot.child s.flattened).lookup name = s.lookup name := by
  refine ⟨s.lookup_eq name, s.mem_names_flattened_iff name, s.mem_flattened_iff name,
    s.collected_eq_flattened.symm, ?_⟩
  rw [lookup_child, lookup_atRoot, lookup_eq]

end Scope

end ChartLisp
