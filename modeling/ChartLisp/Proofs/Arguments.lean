import ChartLisp.Builtin.Arguments
import Mathlib.Data.List.Forall2

/-!
# What the argument readers accept

* `Expr.LeafOf`, `Expr.ListOf`   a head without children; a canonical list of elements
* `exists_forall₂_iff`           a list can be read as a whole if each of its elements can
* `Argument.number_eq_ok`        the number reader accepts the leaves of numbers
* `Argument.elements_eq_ok`      the list reader accepts the canonical lists
-/

namespace ChartLisp

namespace Expr

variable {e : Expr}

/-- the head `a` without children -/
structure LeafOf (e : Expr) (a : Atom) : Prop where
  head : e.head = a
  tail : e.tail = []

/-- the symbol `list` with the elements as children -/
structure ListOf (e : Expr) (es : List Expr) : Prop where
  head : e.head = .symbol listName
  tail : e.tail = es

theorem leafOf_leaf (a : Atom) : (leaf a).LeafOf a := ⟨rfl, rfl⟩

theorem listOf_list (es : List Expr) : (list es).ListOf es := ⟨rfl, rfl⟩

theorem leaf_view {α : Type} {view : Atom → Option α} {mk : α → Atom}
    (h : ∀ a x, view a = some x ↔ a = mk x) {x : α} :
    (if e.isLeaf then view e.head else none) = some x ↔ e.LeafOf (mk x) := by
  unfold isLeaf
  split
  · rename_i hleaf
    rw [h]
    exact ⟨fun hhead => ⟨hhead, List.isEmpty_iff.mp hleaf⟩, fun hleaf => hleaf.head⟩
  · rename_i hchildren
    exact ⟨nofun, fun hleaf => absurd (List.isEmpty_iff.mpr hleaf.tail) hchildren⟩

theorem number?_eq_some {x : Double} : e.number? = some x ↔ e.LeafOf (.number x) :=
  leaf_view fun a x => by cases a <;> simp [Atom.number?]

theorem complex?_eq_some {z : Complex} : e.complex? = some z ↔ e.LeafOf (.complex z) :=
  leaf_view fun a z => by cases a <;> simp [Atom.complex?]

theorem string?_eq_some {s : String} : e.string? = some s ↔ e.LeafOf (.string s) :=
  leaf_view fun a s => by cases a <;> simp [Atom.string?]

theorem isList_iff : e.isList = true ↔ e.head = .symbol listName := by
  unfold isList
  rw [beq_iff_eq]
  cases e.head <;> simp [Atom.symbol?]

theorem elements?_eq_some {es : List Expr} : e.elements? = some es ↔ e.ListOf es := by
  unfold elements?
  split
  · rename_i hlist
    exact ⟨fun h => ⟨isList_iff.mp hlist, Option.some_inj.mp h⟩, fun h => congrArg some h.tail⟩
  · rename_i hlist
    exact ⟨nofun, fun h => absurd (isList_iff.mpr h.head) hlist⟩

end Expr

theorem exists_forall₂_iff {α β : Type} {R : α → β → Prop} {xs : List α} :
    (∃ ys, List.Forall₂ R xs ys) ↔ ∀ x ∈ xs, ∃ y, R x y := by
  induction xs with
  | nil => exact ⟨fun _ => List.forall_mem_nil _, fun _ => ⟨[], .nil⟩⟩
  | cons x xs ih =>
    rw [List.forall_mem_cons, ← ih]
    constructor
    · rintro ⟨_, hys⟩
      cases hys with
      | cons hy hrest => exact ⟨⟨_, hy⟩, _, hrest⟩
    · rintro ⟨⟨y, hy⟩, ys, hys⟩
      exact ⟨y :: ys, .cons hy hys⟩

namespace Argument

variable {procedure : String} {e : Expr}

theorem number_eq_ok {x : Double} : number procedure e = .ok x ↔ e.LeafOf (.number x) := by
  rw [← Expr.number?_eq_some]
  unfold number
  cases e.number? <;> simp

theorem elements_eq_ok {es : List Expr} : elements procedure e = .ok es ↔ e.ListOf es := by
  rw [← Expr.elements?_eq_some]
  unfold elements
  cases e.elements? <;> simp

end Argument

end ChartLisp
