import ChartLisp.Plot.Extent
import ChartLisp.Proofs.Number.Midpoint
import Mathlib.Order.Bounds.Defs

/-!
# The extent of data points

* `foldl_select`        a number chosen from a list step by step is the best of them
* `Extent.Fits`         the least and greatest coordinates of the points
* `Extent.fits`         the extent of finite points has them
* `Extent.borders_eq`   the borders, and the axes that the signs of the extent ask for
* `mapX_le`             drawn abscissas are in the order of the data
-/

namespace ChartLisp

namespace Double

variable {x y z : Double}

theorem le_refl_of_finite (hx : x.isFinite = true) : x ≤ x :=
  (Number.le_iff_value hx hx).mpr le_rfl

theorem le_of_not_lt (hx : x.isFinite = true) (hy : y.isFinite = true) (h : ¬ x < y) : y ≤ x := by
  have hnan := Number.isNaN_eq_false hx
  have hnan' := Number.isNaN_eq_false hy
  refine (Number.le_iff_orderKey hnan' hnan).mpr (not_lt.mp fun hlt => h ?_)
  exact (Number.lt_iff_orderKey hnan hnan').mpr hlt

end Double

namespace Plot

/-! ## Least and greatest numbers -/

/-- `pick` takes one of two numbers, one that `R` puts before both; so does a fold of it -/
theorem foldl_select {P : Double → Prop} {R : Double → Double → Prop}
    {pick : Double → Double → Double} (hrefl : ∀ x, P x → R x x)
    (htrans : ∀ x y z, R x y → R y z → R x z) (hpick : ∀ m y, pick m y = m ∨ pick m y = y)
    (hbest : ∀ m y, P m → P y → R (pick m y) m ∧ R (pick m y) y) (x : Double) (xs : List Double)
    (hP : ∀ y ∈ x :: xs, P y) :
    xs.foldl pick x ∈ x :: xs ∧ ∀ y ∈ x :: xs, R (xs.foldl pick x) y := by
  induction xs generalizing x with
  | nil =>
    have hx := hP x List.mem_cons_self
    exact ⟨List.mem_cons_self, fun y hy => by rw [List.mem_singleton.mp hy]; exact hrefl x hx⟩
  | cons z xs ih =>
    have hx := hP x List.mem_cons_self
    have hz := hP z (List.mem_cons_of_mem x List.mem_cons_self)
    obtain ⟨hfirst, hsecond⟩ := hbest x z hx hz
    have hstep : P (pick x z) := by
      obtain h | h := hpick x z <;> rw [h] <;> assumption
    obtain ⟨hmem, hrest⟩ := ih (pick x z) (List.forall_mem_cons.mpr
      ⟨hstep, fun y hy => hP y (List.mem_cons_of_mem x (List.mem_cons_of_mem z hy))⟩)
    rw [List.foldl_cons]
    have hpicked := hrest (pick x z) List.mem_cons_self
    refine ⟨?_, List.forall_mem_cons.mpr ⟨htrans _ _ _ hpicked hfirst,
      List.forall_mem_cons.mpr ⟨htrans _ _ _ hpicked hsecond,
        fun y hy => hrest y (List.mem_cons_of_mem _ hy)⟩⟩⟩
    obtain heq | hmem := List.mem_cons.mp hmem
    · rw [heq]
      obtain h | h := hpick x z <;> rw [h] <;> simp
    · exact List.mem_cons_of_mem x (List.mem_cons_of_mem z hmem)

theorem isLeast_least {x : Double} {xs : List Double} (h : ∀ y ∈ x :: xs, y.isFinite = true) :
    IsLeast {y | y ∈ x :: xs} (least x xs) := by
  refine foldl_select (P := fun y => y.isFinite = true) (R := (· ≤ ·))
    (fun x hx => Double.le_refl_of_finite hx) (fun x y z => Number.float_le_trans)
    (fun m y => ?_) (fun m y hm hy => ?_) x xs h
  · split
    · exact .inr rfl
    · exact .inl rfl
  · split
    · rename_i hlt
      exact ⟨Number.le_of_lt_float hlt, Double.le_refl_of_finite hy⟩
    · rename_i hlt
      exact ⟨Double.le_refl_of_finite hm, Double.le_of_not_lt hy hm hlt⟩

theorem isGreatest_greatest {x : Double} {xs : List Double}
    (h : ∀ y ∈ x :: xs, y.isFinite = true) : IsGreatest {y | y ∈ x :: xs} (greatest x xs) := by
  refine foldl_select (P := fun y => y.isFinite = true) (R := fun a b => b ≤ a)
    (fun x hx => Double.le_refl_of_finite hx) (fun x y z hxy hyz => Number.float_le_trans hyz hxy)
    (fun m y => ?_) (fun m y hm hy => ?_) x xs h
  · split
    · exact .inl rfl
    · exact .inr rfl
  · split
    · rename_i hlt
      exact ⟨Double.le_refl_of_finite hm, Number.le_of_lt_float hlt⟩
    · rename_i hlt
      exact ⟨Double.le_of_not_lt hy hm hlt, Double.le_refl_of_finite hy⟩

/-! ## Extents -/

def Point.IsFinite (p : Point) : Prop := p.x.isFinite = true ∧ p.y.isFinite = true

namespace Extent

variable {b : Extent} {p : Point} {ps : List Point}

/-- the coordinates of the extent are the least and greatest ones of the points -/
structure Fits (b : Extent) (ps : List Point) : Prop where
  xMin : IsLeast {x | x ∈ ps.map Point.x} b.xMin
  xMax : IsGreatest {x | x ∈ ps.map Point.x} b.xMax
  yMin : IsLeast {y | y ∈ ps.map Point.y} b.yMin
  yMax : IsGreatest {y | y ∈ ps.map Point.y} b.yMax

theorem fits (hb : ofPoints? ps = some b) (hps : ∀ p ∈ ps, p.IsFinite) : b.Fits ps := by
  cases ps with
  | nil => cases hb
  | cons p ps =>
    cases hb
    have hx : ∀ x ∈ p.x :: ps.map Point.x, x.isFinite = true :=
      List.forall_mem_map.mpr fun q hq => (hps q hq).1
    have hy : ∀ y ∈ p.y :: ps.map Point.y, y.isFinite = true :=
      List.forall_mem_map.mpr fun q hq => (hps q hq).2
    exact ⟨isLeast_least hx, isGreatest_greatest hx, isLeast_least hy, isGreatest_greatest hy⟩

theorem exists_ofPoints? (h : ps ≠ []) : ∃ b, ofPoints? ps = some b := by
  cases ps with
  | nil => exact absurd rfl h
  | cons p ps => exact ⟨_, rfl⟩

theorem borders_eq (b : Extent) :
    b.borders =
      [line (place b.left b.top) (place b.right b.top),
        line (place b.left b.bottom) (place b.right b.bottom),
        line (place b.left b.top) (place b.left b.bottom),
        line (place b.right b.top) (place b.right b.bottom)] ++
      (if b.yMin < 0 ∧ 0 < b.yMax then [line (place b.left 0) (place b.right 0)] else []) ++
      (if b.xMin < 0 ∧ 0 < b.xMax then [line (place 0 b.bottom) (place 0 b.top)] else []) := by
  simp only [borders, axes, hasXAxis, hasYAxis, Bool.and_eq_true, decide_eq_true_eq,
    List.append_assoc]

end Extent

/-! ## Drawn coordinates -/

theorem stretch_nonneg {low high : Double} (h : (Extent.stretch low high).isFinite = true) :
    0 ≤ Number.value (Extent.stretch low high).float := by
  unfold Extent.stretch at h ⊢
  dsimp only at h ⊢
  by_cases hpos : 0 < high - low
  · rw [if_pos hpos] at h ⊢
    have hside : 0 < Number.value side.float :=
      Number.value_pos (by decide) (by decide)
    exact Number.value_div_nonneg (by decide) hside.le hpos h
  · rw [if_neg hpos]
    have hone : 0 < Number.value (1 : Double).float :=
      Number.value_pos (by decide) (by decide)
    exact hone.le

theorem mapX_le {b : Extent} {x y : Double} (hs : (Extent.stretch b.xMin b.xMax).isFinite = true)
    (hx : x.isFinite = true) (hy : y.isFinite = true) (h : x ≤ y) : b.mapX x ≤ b.mapX y :=
  Number.mul_le_mul_float hx hy hs (stretch_nonneg hs) h

end Plot

end ChartLisp
