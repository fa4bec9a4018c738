import ChartLisp.Proofs.Plot.Discrete
import Mathlib.Data.List.FinRange
import Mathlib.Data.List.OfFn

/-!
# The order of data points does not matter

Two equal numbers can differ in the sign of a zero only.  Without negative zeros the least and
greatest coordinates are therefore the same numbers in whatever order the points come, and all that
is drawn depends on the order of the points no further.

* `Number.eq_of_orderKey`     doubles at one place are the same, negative zeros apart
* `Extent.Fits.unique`        points of one set have one extent
* `Discrete.plot_permuted`    permuted points give the permuted markers and stems, and else the same
-/

namespace ChartLisp

theorem Number.eq_of_orderKey {x y : Float} (h : orderKey x = orderKey y) (hx : x ≠ -0)
    (hy : y ≠ -0) : x = y := by
  have hminus : ofMagnitudeBits true 0 = -0 := by decide
  have hxbits := ofMagnitudeBits_magnitudeBits x
  have hybits := ofMagnitudeBits_magnitudeBits y
  rw [orderKey_eq, orderKey_eq] at h
  have hmagnitude : magnitudeBits x = magnitudeBits y := by
    split at h <;> split at h <;> omega
  rw [← hmagnitude] at h hybits
  -- of two signs with the same key the magnitude is zero, and the negative one is excluded
  cases hsx : signBit x <;> cases hsy : signBit y <;> rw [hsx] at hxbits h <;>
    rw [hsy] at hybits h
  · exact hxbits.symm.trans hybits
  · have hzero : magnitudeBits x = 0 := by simpa using h
    rw [hzero, hminus] at hybits
    exact absurd hybits.symm hy
  · have hzero : magnitudeBits x = 0 := by simpa [eq_comm] using h
    rw [hzero, hminus] at hxbits
    exact absurd hxbits.symm hx
  · exact hxbits.symm.trans hybits

namespace Double

variable {x y : Double}

theorem eq_of_float (hx : x.isFinite = true) (hy : y.isFinite = true) (h : x.float = y.float) :
    x = y := by
  have hplain {z : Double} (hz : z.isFinite = true) : z.nanNegative = false := by
    refine Bool.eq_false_of_not_eq_true fun hneg => ?_
    exact absurd (z.isNaN_of_nanNegative hneg) (Bool.eq_false_iff.mp (Number.isNaN_eq_false hz))
  have hx' := hplain hx
  have hy' := hplain hy
  cases x
  cases y
  dsimp only at h hx' hy'
  subst h hx' hy'
  rfl

/-- a finite number other than the negative zero -/
def IsPlain (x : Double) : Prop := x.isFinite = true ∧ x ≠ -0

theorem IsPlain.antisymm (hx : x.IsPlain) (hy : y.IsPlain) (hxy : x ≤ y) (hyx : y ≤ x) : x = y := by
  have hminus {z : Double} (hz : z.IsPlain) : z.float ≠ -0 := fun h =>
    hz.2 (eq_of_float hz.1 (by decide) h)
  have hnan := Number.isNaN_eq_false hx.1
  have hnan' := Number.isNaN_eq_false hy.1
  refine eq_of_float hx.1 hy.1 (Number.eq_of_orderKey (le_antisymm ?_ ?_) (hminus hx) (hminus hy))
  · exact (Number.le_iff_orderKey hnan hnan').mp hxy
  · exact (Number.le_iff_orderKey hnan' hnan).mp hyx

end Double

namespace Plot

theorem isLeast_unique {S : Set Double} {a b : Double} (hS : ∀ x ∈ S, x.IsPlain)
    (ha : IsLeast S a) (hb : IsLeast S b) : a = b :=
  (hS a ha.1).antisymm (hS b hb.1) (ha.2 hb.1) (hb.2 ha.1)

theorem isGreatest_unique {S : Set Double} {a b : Double} (hS : ∀ x ∈ S, x.IsPlain)
    (ha : IsGreatest S a) (hb : IsGreatest S b) : a = b :=
  (hS a ha.1).antisymm (hS b hb.1) (hb.2 ha.1) (ha.2 hb.1)

/-- finite coordinates other than the negative zero -/
def Point.IsPlain (p : Point) : Prop := p.x.IsPlain ∧ p.y.IsPlain

theorem Extent.Fits.unique {b c : Extent} {ps qs : List Point} (hperm : ps.Perm qs)
    (hps : ∀ p ∈ ps, p.IsPlain) (hb : b.Fits ps) (hc : c.Fits qs) : b = c := by
  have hxs : {x | x ∈ qs.map Point.x} = {x | x ∈ ps.map Point.x} :=
    Set.ext fun x => (hperm.map Point.x).mem_iff.symm
  have hys : {y | y ∈ qs.map Point.y} = {y | y ∈ ps.map Point.y} :=
    Set.ext fun y => (hperm.map Point.y).mem_iff.symm
  have hplainX : ∀ x ∈ {x | x ∈ ps.map Point.x}, x.IsPlain :=
    List.forall_mem_map.mpr fun p hp => (hps p hp).1
  have hplainY : ∀ y ∈ {y | y ∈ ps.map Point.y}, y.IsPlain :=
    List.forall_mem_map.mpr fun p hp => (hps p hp).2
  obtain ⟨hxMin, hxMax, hyMin, hyMax⟩ := hc
  rw [hxs] at hxMin hxMax
  rw [hys] at hyMin hyMax
  have h1 := isLeast_unique hplainX hb.xMin hxMin
  have h2 := isGreatest_unique hplainX hb.xMax hxMax
  have h3 := isLeast_unique hplainY hb.yMin hyMin
  have h4 := isGreatest_unique hplainY hb.yMax hyMax
  cases b
  cases c
  dsimp only at h1 h2 h3 h4
  rw [h1, h2, h3, h4]

namespace Discrete

variable {n : Nat}

theorem forall₂_ofFn {α β : Type} {R : α → β → Prop} {f : Fin n → α} {g : Fin n → β}
    (h : ∀ i, R (f i) (g i)) : List.Forall₂ R (List.ofFn f) (List.ofFn g) := by
  induction n with
  | zero => simp
  | succ n ih =>
    rw [List.ofFn_succ, List.ofFn_succ]
    exact .cons (h 0) (ih fun i => h i.succ)

/-- marker and stem of a point -/
def marked (b : Extent) (p : Point) : Expr × Expr :=
  (point (b.mapX p.x) (b.mapY p.y) 0.5,
    line (place (b.mapX p.x) (b.mapY p.y)) (place (b.mapX p.x) b.stemFoot))

theorem stems_ofFn (b : Extent) (p : Fin n → Point) :
    stems b (List.ofFn p) =
      (List.ofFn fun i => marked b (p i)).flatMap fun pair => [pair.1, pair.2] := by
  have hpairs : (List.ofFn fun i => marked b (p i)) = (List.ofFn p).map (marked b) := by
    rw [List.map_ofFn]
    rfl
  rw [hpairs, List.flatMap_map]
  rfl

theorem accepted_ofFn {es : Fin n → Expr} {p : Fin n → Point} {data : Expr} {rest : List Expr}
    {settings : List Setting} (hn : 0 < n) (hdata : data.ListOf (List.ofFn es))
    (hpoints : ∀ i, Point.Shown (es i) (p i)) (hoptions : AcceptedOptions rest settings) :
    Accepted (data :: rest) (List.ofFn p) settings := by
  refine .intro hdata (forall₂_ofFn hpoints) (fun hnil => ?_) hoptions
  have hlength := congrArg List.length hnil
  rw [List.length_ofFn, List.length_nil] at hlength
  omega

/-- Permuted points without negative zeros give the same plot, but for the markers and stems, which
are permuted as the points are. -/
theorem plot_permuted (σ : Equiv.Perm (Fin n)) {es : Fin n → Expr} {p : Fin n → Point}
    {data permuted : Expr} {rest : List Expr} {settings : List Setting} (hn : 0 < n)
    (hdata : data.ListOf (List.ofFn es)) (hpermuted : permuted.ListOf (List.ofFn (es ∘ σ)))
    (hpoints : ∀ i, Point.Shown (es i) (p i)) (hzero : ∀ i, (p i).x ≠ -0 ∧ (p i).y ≠ -0)
    (hoptions : AcceptedOptions rest settings) :
    ∃ (b : Extent) (o : Options) (pair : Fin n → Expr × Expr), b.Fits (List.ofFn p) ∧
      o = .ofSettings settings ∧
      (∀ i, pair i = (point (b.mapX (p i).x) (b.mapY (p i).y) 0.5,
        line (place (b.mapX (p i).x) (b.mapY (p i).y)) (place (b.mapX (p i).x) b.stemFoot))) ∧
      plot (data :: rest) = .ok (Expr.list (
        ((List.ofFn pair).flatMap fun marked => [marked.1, marked.2]) ++ b.borders ++
          o.captions b ++ b.cornerLabels o.textScale)) ∧
      plot (permuted :: rest) = .ok (Expr.list (
        ((List.ofFn (pair ∘ σ)).flatMap fun marked => [marked.1, marked.2]) ++ b.borders ++
          o.captions b ++ b.cornerLabels o.textScale)) := by
  have haccepted := accepted_ofFn hn hdata hpoints hoptions
  have haccepted' : Accepted (permuted :: rest) (List.ofFn (p ∘ σ)) settings :=
    accepted_ofFn hn hpermuted (fun i => hpoints (σ i)) hoptions
  obtain ⟨b, hb⟩ := Extent.exists_ofPoints? haccepted.ne_nil
  obtain ⟨c, hc⟩ := Extent.exists_ofPoints? haccepted'.ne_nil
  have hplain : ∀ q ∈ List.ofFn p, q.IsPlain := by
    intro q hq
    obtain ⟨hx, hy⟩ := haccepted.isFinite q hq
    obtain ⟨i, rfl⟩ := List.mem_ofFn.mp hq
    exact ⟨⟨hx, (hzero i).1⟩, ⟨hy, (hzero i).2⟩⟩
  have hfits := Extent.fits hb haccepted.isFinite
  have hsame : b = c := Extent.Fits.unique (Equiv.Perm.ofFn_comp_perm σ p).symm hplain hfits
    (Extent.fits hc haccepted'.isFinite)
  subst hsame
  refine ⟨b, .ofSettings settings, fun i => marked b (p i), hfits, rfl, fun i => rfl, ?_, ?_⟩
  · rw [← stems_ofFn]
    exact plot_eq_ok.mpr ⟨_, _, b, haccepted, hb, rfl⟩
  · have hstems := stems_ofFn b (p ∘ σ)
    rw [show (fun i => marked b (p i)) ∘ σ = fun i => marked b ((p ∘ σ) i) from rfl, ← hstems]
    exact plot_eq_ok.mpr ⟨_, _, b, haccepted', hc, rfl⟩

/-- three points, the first two with the same ordinate -/
def threePoints : Fin 3 → Point := ![⟨2, 1⟩, ⟨0, 1⟩, ⟨1, 3⟩]

theorem plot_permuted_reversed : ∃ (pair : Fin 3 → Expr × Expr) (frame : List Expr),
    plot [Expr.list [Point.expr ⟨2, 1⟩, Point.expr ⟨0, 1⟩, Point.expr ⟨1, 3⟩]] =
      .ok (Expr.list (((List.ofFn pair).flatMap fun marked => [marked.1, marked.2]) ++ frame)) ∧
    plot [Expr.list [Point.expr ⟨1, 3⟩, Point.expr ⟨0, 1⟩, Point.expr ⟨2, 1⟩]] =
      .ok (Expr.list (
        ((List.ofFn (pair ∘ Fin.revPerm)).flatMap fun marked => [marked.1, marked.2]) ++
          frame)) := by
  have hfinite : ∀ i, (threePoints i).x.isFinite = true ∧ (threePoints i).y.isFinite = true := by
    decide +kernel
  have hzero : ∀ i, (threePoints i).x ≠ -0 ∧ (threePoints i).y ≠ -0 := by
    decide +kernel
  have hpoints (i : Fin 3) : Point.Shown ((Point.expr ∘ threePoints) i) (threePoints i) :=
    Point.shown_expr (hfinite i)
  obtain ⟨b, o, pair, -, -, -, hplot, hreversed⟩ := plot_permuted Fin.revPerm (by decide)
    (Expr.listOf_list _) (Expr.listOf_list _) hpoints hzero .absent
  simp only [List.append_assoc] at hplot hreversed
  exact ⟨pair, _, hplot, hreversed⟩

end Discrete

end Plot

end ChartLisp
