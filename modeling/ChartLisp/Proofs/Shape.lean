import ChartLisp.Proofs.Growth

/-!
# Shapes of expressions

* `Expr.height`   how deep an expression nests; a leaf has height one
* `Expr.Avoids`   no node of an expression is headed by a special form, wherever it stands
* `Expr.DatumOf`  data: values without procedures, with a condition on their strings
-/

namespace ChartLisp

/-- the atoms of data, apart from nothing -/
inductive Atom.IsDatum (P : String → Prop) : Atom → Prop where
  | number (x : Double) : IsDatum P (.number x)
  | complex (z : Complex) : IsDatum P (.complex z)
  | string {s : String} (h : P s) : IsDatum P (.string s)

namespace Expr

/-- nothing, a number, a complex number, a string with the property, or a list of data; whatever is
attached to it -/
inductive DatumOf (P : String → Prop) : Expr → Prop where
  | nothing (p : List (String × Expr)) : DatumOf P ⟨.none, [], p, [], false⟩
  | atom {h : Atom} (hh : h.IsDatum P) (p : List (String × Expr)) : DatumOf P ⟨h, [], p, [], false⟩
  | list {es : List Expr} (hes : ∀ e ∈ es, DatumOf P e) (p : List (String × Expr)) :
      DatumOf P ⟨.symbol listName, es, p, [], false⟩

/-! ## Height -/

mutual

/-- the number of nodes on the longest way down -/
def height : Expr → Nat
  | ⟨_, t, _, _, _⟩ => heightAll t + 1

/-- the greatest height among the expressions -/
def heightAll : List Expr → Nat
  | [] => 0
  | e :: es => max e.height (heightAll es)

end

theorem heightAll_le {es : List Expr} {n : Nat} :
    heightAll es ≤ n ↔ ∀ e ∈ es, e.height ≤ n := by
  induction es with
  | nil => simp [heightAll]
  | cons e es ih => rw [heightAll, Nat.max_le, ih, List.forall_mem_cons]

theorem height_eq (e : Expr) : e.height = heightAll e.tail + 1 := by
  cases e
  rw [height]

theorem height_pos (e : Expr) : 0 < e.height := by
  rw [height_eq]
  exact Nat.succ_pos _

/-- a node fits into one level more than its children -/
theorem height_le_succ {e : Expr} {n : Nat} :
    e.height ≤ n + 1 ↔ ∀ c ∈ e.tail, c.height ≤ n := by
  rw [height_eq, Nat.succ_le_succ_iff, heightAll_le]

/-! ## Heads that do not occur -/

/-- no node is headed by the special form, not even a leaf or a parameter -/
inductive Avoids (form : Form) : Expr → Prop where
  | intro {e : Expr} (hh : e.head ≠ .symbol form.name) (ht : ∀ c ∈ e.tail, Avoids form c) :
      Avoids form e

namespace Avoids

variable {form : Form} {e : Expr}

theorem head (h : e.Avoids form) : e.head ≠ .symbol form.name := by
  cases h with
  | intro hh _ => exact hh

theorem tail (h : e.Avoids form) : ∀ c ∈ e.tail, c.Avoids form := by
  cases h with
  | intro _ ht => exact ht

theorem node_iff {a : Atom} {es : List Expr} :
    (Expr.node a es).Avoids form ↔ a ≠ .symbol form.name ∧ ∀ e ∈ es, e.Avoids form :=
  ⟨fun h => ⟨h.head, h.tail⟩, fun h => .intro h.1 h.2⟩

theorem form?_ne (h : e.Avoids form) : Eval.form? e ≠ some form := fun hf =>
  h.head (Eval.head_eq_of_form? hf)

/-- without a node headed by `define` nothing is defined -/
theorem not_defines (h : e.Avoids .define) (name : String) : ¬ e.Defines name := by
  intro hdef
  induction hdef with
  | here hd _ _ => exact h.head hd
  | child _ hc _ ih => exact ih (h.tail _ hc)

end Avoids

end Expr

end ChartLisp
