import ChartLisp.Proofs.Plot.Continuous
import ChartLisp.Proofs.Plot.Extent
import Mathlib.Data.List.Chain
import Mathlib.Data.List.Range

/-!
# The points of a plot stand from left to right

The first samples are evenly spaced, and a pass only adds midpoints and leaves points out.

* `Ascending`             finite abscissas in their order
* `slots_ascending`       one pass keeps it
* `ascending_grid`        the first samples have it
* `ascending_polyline`    so has every stage of a plot
* `plot_answers`          a plot succeeds if the first samples are at finite numbers and the
                          function has a finite value at every finite number
* `plot_ascending`        a plot that succeeds draws its points from left to right
-/

namespace ChartLisp

instance : Trans (· ≤ · : Double → Double → Prop) (· ≤ · : Double → Double → Prop) (· ≤ ·) :=
  ⟨fun hxy hyz => Number.float_le_trans hxy hyz⟩

theorem Double.midpoint_between {a b : Double} (ha : a.isFinite = true) (hb : b.isFinite = true)
    (h : a ≤ b) : a ≤ a.midpoint b ∧ a.midpoint b ≤ b ∧ (a.midpoint b).isFinite = true :=
  Number.midpoint_between ha hb h

namespace Plot

open Sampling (Answers Result)

variable {f : List Double → Double → Except EvalError Double} {earlier : List Double}
  {ps qs : List Point} {lower upper : Double} {n : Nat}

/-- finite numbers, none less than the one before it -/
def Ascending (xs : List Double) : Prop :=
  xs.IsChain (· ≤ ·) ∧ ∀ x ∈ xs, x.isFinite = true

/-! ## One pass -/

/-- the abscissa of a slot -/
def Slot.x : Slot Point → Double
  | .kept p => p.x
  | .sampled x => x

theorem Refined.map_x (h : Refined f ps qs) : qs.map Point.x = (slots isBent ps).map Slot.x := by
  unfold Refined at h
  generalize slots isBent ps = slots at h
  induction h with
  | nil => rfl
  | @cons slot p _ _ hp _ ih =>
    rw [List.map_cons, List.map_cons, ih]
    cases slot with
    | kept q =>
      cases hp
      rfl
    | sampled x =>
      rw [(sample_result hp).1]
      rfl

theorem slots_ascending (bent : Point → Point → Point → Bool) (h : Ascending (ps.map Point.x)) :
    Ascending ((slots bent ps).map Slot.x) := by
  fun_induction slots bent ps with
  | case1 a b c rest ih =>
    obtain ⟨hchain, hfinite⟩ := h
    simp only [List.map_cons, List.isChain_cons_cons, List.forall_mem_cons] at hchain hfinite
    obtain ⟨hab, hbc, hrest⟩ := hchain
    obtain ⟨ha, hb, hc, hfinite⟩ := hfinite
    obtain ⟨ihchain, ihfinite⟩ := ih ⟨hrest, List.forall_mem_cons.mpr ⟨hc, hfinite⟩⟩
    obtain ⟨hax, hxb, hx⟩ := Double.midpoint_between ha hb hab
    obtain ⟨hby, hyc, hy⟩ := Double.midpoint_between hb hc hbc
    have hhead : ((slots bent (c :: rest)).map Slot.x).head? = some c.x := by
      rw [List.head?_map, slots_head?]
      rfl
    rw [List.map_append, Ascending, List.isChain_append, hhead, List.forall_mem_append]
    unfold Slot.block
    split
    · refine ⟨⟨?_, ihchain, ?_⟩, ?_, ihfinite⟩
      · simpa [Slot.x] using ⟨hax, hxb, hby⟩
      · simpa [Slot.x] using hyc
      · simpa [Slot.x] using ⟨ha, hx, hb, hy⟩
    · refine ⟨⟨.singleton _, ihchain, ?_⟩, ?_, ihfinite⟩
      · have hac : a.x ≤ c.x := Number.float_le_trans hab hbc
        simpa [Slot.x] using hac
      · simpa [Slot.x] using ha
  | case2 ps _ =>
    rw [List.map_map]
    exact h

/-! ## The first samples -/

namespace Continuous

theorem readBounds_ok {bounds : Expr} (h : readBounds bounds = .ok (lower, upper)) :
    lower.isFinite = true ∧ upper.isFinite = true ∧ lower ≤ upper := by
  obtain ⟨elements, -, h⟩ := bind_eq_ok.mp h
  split at h
  · obtain ⟨x, -, h⟩ := bind_eq_ok.mp h
    obtain ⟨y, -, h⟩ := bind_eq_ok.mp h
    split at h
    · cases h
    · rename_i haccepted
      cases h
      simp only [Bool.or_eq_true, decide_eq_true_eq, Bool.not_eq_true', not_or,
        Bool.not_eq_false] at haccepted
      obtain ⟨⟨hle, hlower⟩, hupper⟩ := haccepted
      refine ⟨hlower, hupper, ?_⟩
      have htotal := le_total (Number.value lower.float) (Number.value upper.float)
      exact (Number.le_iff_value hlower hupper).mpr
        (htotal.resolve_right fun h => hle ((Number.le_iff_value hupper hlower).mpr h))
  · cases h

theorem ofNat_le_succ : ∀ i < intervalCount, Float.ofNat i ≤ Float.ofNat (i + 1) := by
  decide +kernel

theorem isFinite_ofNat : ∀ i < intervalCount + 1, (Float.ofNat i).isFinite = true := by
  decide

theorem value_intervalCount_pos : 0 < Number.value (Float.ofNat intervalCount) :=
  Number.value_pos (by decide) (by decide)

/-- accepted bounds give evenly spaced numbers; where one of them is not finite the plot fails -/
theorem ascending_grid (hlower : lower.isFinite = true) (hupper : upper.isFinite = true)
    (hle : lower ≤ upper) (hfinite : ∀ x ∈ grid lower upper, x.isFinite = true) :
    Ascending (grid lower upper) := by
  have hgrid (i : Nat) (hi : i < intervalCount + 1) :
      (lower + Double.ofNat i * ((upper - lower) / Double.ofNat intervalCount)).isFinite = true :=
    hfinite _ (List.mem_map.mpr ⟨i, List.mem_range.mpr hi, rfl⟩)
  have hstep := Number.isFinite_of_mul (Number.isFinite_of_add (hgrid 0 (Nat.succ_pos _)))
  have hnonneg := Number.value_step_nonneg hlower hupper (isFinite_ofNat _ (Nat.lt_succ_self _))
    value_intervalCount_pos hle hstep
  refine ⟨?_, hfinite⟩
  rw [grid, List.isChain_map, List.isChain_range_succ]
  intro i hi
  exact Number.grid_mono hlower (isFinite_ofNat i (by omega)) (isFinite_ofNat (i + 1) (by omega))
    (ofNat_le_succ i hi) hnonneg (Number.isFinite_of_add (hgrid i (by omega)))
    (Number.isFinite_of_add (hgrid (i + 1) (by omega)))

/-! ## Every stage -/

/-- a finite point whose ordinate is the value of the function at its abscissa -/
structure OnGraph (f : List Double → Double → Except EvalError Double) (p : Point) : Prop where
  finite : p.x.isFinite = true ∧ p.y.isFinite = true
  value : ∃ earlier, f earlier p.x = .ok p.y

theorem onGraph_sample {x : Double} {p : Point} (h : Result f (sample x) p) :
    p.x = x ∧ OnGraph f p := by
  obtain ⟨rfl, hx, hy, hvalue⟩ := sample_result h
  exact ⟨rfl, ⟨hx, hy⟩, hvalue⟩

theorem onGraph_samples {xs : List Double}
    (h : List.Forall₂ (fun x p => Result f (sample x) p) xs ps) :
    ps.map Point.x = xs ∧ ∀ p ∈ ps, OnGraph f p := by
  induction h with
  | nil => exact ⟨rfl, fun p hp => nomatch hp⟩
  | cons hp _ ih =>
    obtain ⟨rfl, hgraph⟩ := onGraph_sample hp
    exact ⟨congrArg _ ih.1, List.forall_mem_cons.mpr ⟨hgraph, ih.2⟩⟩

theorem kept_mem_slots {bent : Point → Point → Point → Bool} {p : Point}
    (h : Slot.kept p ∈ slots bent ps) : p ∈ ps := by
  fun_induction slots bent ps with
  | case1 a b c rest ih =>
    rw [List.mem_append] at h
    obtain h | h := h
    · unfold Slot.block at h
      split at h
      · obtain rfl | rfl : p = a ∨ p = b := by simpa using h
        · exact List.mem_cons_self
        · exact List.mem_cons_of_mem a List.mem_cons_self
      · obtain rfl : p = a := by simpa using h
        exact List.mem_cons_self
    · exact List.mem_cons_of_mem a (List.mem_cons_of_mem b (ih h))
  | case2 ps _ =>
    obtain ⟨q, hq, hqp⟩ := List.mem_map.mp h
    cases hqp
    exact hq

theorem onGraph_refined (h : Refined f ps qs) (hps : ∀ p ∈ ps, OnGraph f p) :
    ∀ q ∈ qs, OnGraph f q := by
  have hkept (p : Point) (hp : Slot.kept p ∈ slots isBent ps) := hps p (kept_mem_slots hp)
  unfold Refined at h
  generalize slots isBent ps = slots at h hkept
  induction h with
  | nil => exact fun q hq => nomatch hq
  | @cons slot q _ _ hq _ ih =>
    refine List.forall_mem_cons.mpr ⟨?_, ih fun p hp => hkept p (List.mem_cons_of_mem slot hp)⟩
    cases slot with
    | kept p =>
      cases hq
      exact hkept _ List.mem_cons_self
    | sampled x => exact (onGraph_sample hq).2

theorem ascending_polyline (hlower : lower.isFinite = true) (hupper : upper.isFinite = true)
    (hle : lower ≤ upper)
    (h : ((polyline lower upper n).answerAfter f earlier).outcome = .ok ps) :
    Ascending (ps.map Point.x) ∧ ∀ p ∈ ps, OnGraph f p := by
  induction n generalizing ps with
  | zero =>
    obtain ⟨hxs, hgraph⟩ := onGraph_samples (polyline_zero_ok h).1
    refine ⟨?_, hgraph⟩
    rw [hxs]
    refine ascending_grid hlower hupper hle ?_
    rw [← hxs, List.forall_mem_map]
    exact fun p hp => (hgraph p hp).finite.1
  | succ n ih =>
    obtain ⟨qs, hqs, hrefined, -⟩ := polyline_succ_ok h
    obtain ⟨hascending, hgraph⟩ := ih hqs
    rw [hrefined.map_x]
    exact ⟨slots_ascending isBent hascending, onGraph_refined hrefined hgraph⟩

/-! ## Plots that succeed -/

/-- the function has a finite value at every finite number -/
def Total (f : List Double → Double → Except EvalError Double) : Prop :=
  ∀ earlier x, x.isFinite = true → ∃ y, f earlier x = .ok y ∧ y.isFinite = true

theorem sample_answers (hf : Total f) {x : Double} (hx : x.isFinite = true) :
    Answers f (sample x) := by
  intro earlier
  obtain ⟨y, hy, hfinite⟩ := hf earlier x hx
  have hpoint : finitePoint procedure x y = .ok ⟨x, y⟩ := finitePoint_of_finite hx hfinite
  refine ⟨⟨x, y⟩, ?_⟩
  show ((Sampling.ask x fun y => Sampling.ofExcept (finitePoint procedure x y)).answerAfter f
    earlier).outcome = _
  simp only [Sampling.answerAfter, hy, hpoint, Sampling.ofExcept]

theorem polyline_answers (hf : Total f) (hlower : lower.isFinite = true)
    (hupper : upper.isFinite = true) (hle : lower ≤ upper)
    (hgrid : ∀ x ∈ grid lower upper, x.isFinite = true) (n : Nat) :
    Answers f (polyline lower upper n) := by
  induction n with
  | zero =>
    intro earlier
    obtain ⟨ps, hps⟩ := Sampling.mapM_answers (fun x hx => sample_answers hf (hgrid x hx)) earlier
    refine ⟨ps, ?_⟩
    unfold polyline
    rw [firstSamples_eq, Sampling.answerAfter_bind, hps]
    rfl
  | succ n ih =>
    intro earlier
    obtain ⟨ps, hps⟩ := ih earlier
    have hslots := (slots_ascending isBent (ascending_polyline hlower hupper hle hps).1).2
    have hfill : ∀ slot ∈ slots isBent ps, Answers f (slot.fill sample id) := by
      intro slot hslot
      cases slot with
      | kept p => exact fun _ => ⟨p, rfl⟩
      | sampled x => exact sample_answers hf (hslots x (List.mem_map.mpr ⟨_, hslot, rfl⟩))
    obtain ⟨qs, hqs⟩ := Sampling.mapM_answers hfill
      (earlier ++ ((polyline lower upper n).answerAfter f earlier).asked)
    refine ⟨qs, ?_⟩
    rw [polyline_succ, Sampling.answerAfter_bind, hps]
    dsimp only
    rw [Sampling.answerAfter_bind, refine_eq_slots, hqs]
    rfl

theorem plot_answers {bounds options : Expr} {o : Options} (hf : Total f)
    (hbounds : readBounds bounds = .ok (lower, upper))
    (hoptions : Options.read procedure options = .ok o)
    (hgrid : ∀ x ∈ grid lower upper, x.isFinite = true) :
    ∃ e, (run bounds options f).outcome = .ok e := by
  obtain ⟨hlower, hupper, hle⟩ := readBounds_ok hbounds
  obtain ⟨ps, hps⟩ := polyline_answers hf hlower hupper hle hgrid passCount []
  have hcounts := (polyline_counts hps).1
  cases ps with
  | nil => exact absurd hcounts (by decide)
  | cons p ps =>
    obtain ⟨b, hb⟩ : ∃ b, Extent.ofPoints? (p :: ps) = some b := ⟨_, rfl⟩
    refine ⟨Expr.list (scene b (p :: ps) o), ?_⟩
    rw [run, plot_eq, hbounds, hoptions]
    show ((polyline lower upper passCount >>= draw o).answerAfter f []).outcome = _
    rw [Sampling.answerAfter_bind, hps]
    dsimp only
    rw [draw, hb]
    rfl

/-- the absolute value over the interval from -1 to 1, under a title -/
theorem plot_abs_answers : ∃ e,
    (run (Expr.list [Expr.number (-1), Expr.number 1])
      (Expr.list [Expr.list [Expr.string "title", Expr.string "corner"]])
      fun _ x => .ok x.abs).outcome = .ok e :=
  plot_answers (fun _ x hx => ⟨x.abs, rfl, Number.isFinite_abs hx⟩) rfl rfl (by decide +kernel)

/-! ## What is drawn -/

/-- A plot that succeeds takes its first samples from left to right, every pass leaves the points
in that order, and the lines are drawn through the points of the last pass as they stand.  Each
point is the value of the function at its abscissa. -/
theorem plot_ascending {bounds options e : Expr}
    (h : (run bounds options f).outcome = .ok e) :
    ∃ lower upper stage b rest, readBounds bounds = .ok (lower, upper) ∧
      Stages f lower upper stage ∧
      (∀ n ≤ passCount, ((stage n).map Point.x).Pairwise (· ≤ ·) ∧ ∀ p ∈ stage n, OnGraph f p) ∧
      Extent.ofPoints? (stage passCount) = some b ∧
      e = Expr.list (segments ((stage passCount).map b.placed) ++ rest) ∧
      ((Extent.stretch b.xMin b.xMax).isFinite = true →
        ((stage passCount).map fun p => b.mapX p.x).Pairwise (· ≤ ·)) := by
  obtain ⟨lower, upper, o, stage, b, hbounds, hoptions, hstages, hb, rfl, -⟩ := plot_ok h
  obtain ⟨hlower, hupper, hle⟩ := readBounds_ok hbounds
  have hstage (n : Nat) (hn : n ≤ passCount) := ascending_polyline hlower hupper hle (hstages n hn)
  refine ⟨lower, upper, stage, b, o.captions b ++ b.borders ++ b.cornerLabels o.textScale, hbounds,
    hstages, fun n hn => ⟨(hstage n hn).1.1.pairwise, (hstage n hn).2⟩, hb, ?_, fun hs => ?_⟩
  · unfold scene Extent.placed
    rw [List.append_assoc, List.append_assoc, List.append_assoc]
  · obtain ⟨hascending, hgraph⟩ := hstage passCount le_rfl
    have hpairwise := List.pairwise_map.mp hascending.1.pairwise
    rw [List.pairwise_map]
    exact hpairwise.imp_of_mem fun hp hq hle =>
      mapX_le hs (hgraph _ hp).finite.1 (hgraph _ hq).finite.1 hle

theorem plot_ascending_abs : ∃ e stage,
    (run (Expr.list [Expr.number (-1), Expr.number 1])
      (Expr.list [Expr.list [Expr.string "title", Expr.string "corner"]])
      fun _ x => .ok x.abs).outcome = .ok e ∧
    Stages (fun _ x => .ok x.abs) (-1) 1 stage ∧
    ∀ n ≤ passCount, ((stage n).map Point.x).Pairwise (· ≤ ·) ∧
      ∀ p ∈ stage n, OnGraph (fun _ x => .ok x.abs) p := by
  obtain ⟨e, he⟩ := plot_abs_answers
  obtain ⟨lower, upper, stage, b, rest, hbounds, hstages, hstage, -⟩ := plot_ascending he
  obtain ⟨rfl, rfl⟩ : (-1, 1) = (lower, upper) := Except.ok.inj hbounds
  exact ⟨e, stage, he, hstages, hstage⟩

end Continuous

end Plot

end ChartLisp
