import ChartLisp.Proofs.Number.Magnitude
import ChartLisp.Proofs.Plot.Causality
import ChartLisp.Proofs.Plot.Order

/-!
# Where a plot asks for values

A plot of a function is to ask for values between its bounds.  The places of the first samples are
rounded, so that the last of them can lie behind the upper bound; everything else that is asked lies
between the lower bound and this one.  Bounds whose distance is infinite give no numbers at all.

* `lastSample`           the place of the last of the first samples
* `grid_between`         the first samples are taken between the lower bound and the last of them
* `slots_between`        a pass asks between points it has got
* `asks_polyline`        so all that is asked lies there
* `plot_within_iff`      a plot asks within its bounds only, whatever the function is, exactly if
                         the last of the first samples lies there
-/

namespace ChartLisp.Plot

open Sampling (Asks)

variable {f : List Double → Double → Except EvalError Double} {ps : List Point}
  {lower upper : Double}

/-! ## One pass -/

theorem Ascending.between {xs : List Double} (h : Ascending xs) {x : Double} (hx : x ∈ xs) :
    ∃ a b, xs.head? = some a ∧ xs.getLast? = some b ∧ a ≤ x ∧ x ≤ b := by
  have hne := List.ne_nil_of_mem hx
  have hpairwise := h.1.pairwise
  refine ⟨_, _, List.head?_eq_some_head hne, List.getLast?_eq_some_getLast hne, ?_, ?_⟩
  · refine hpairwise.rel_head_of_rel_head_head hx ?_
    exact Double.le_refl_of_finite (h.2 _ (List.head_mem hne))
  · refine hpairwise.rel_getLast_of_rel_getLast_getLast hx ?_
    exact Double.le_refl_of_finite (h.2 _ (List.getLast_mem hne))

theorem slots_between {bent : Point → Point → Point → Bool} (h : Ascending (ps.map Point.x))
    {x : Double} (hx : x ∈ (slots bent ps).map Slot.x) :
    ∃ p ∈ ps, ∃ q ∈ ps, p.x ≤ x ∧ x ≤ q.x := by
  obtain ⟨a, b, ha, hb, hax, hxb⟩ := (slots_ascending bent h).between hx
  rw [List.head?_map, slots_head?, Option.map_map] at ha
  rw [List.getLast?_map, slots_getLast?, Option.map_map] at hb
  obtain ⟨p, hp, rfl⟩ := Option.map_eq_some_iff.mp ha
  obtain ⟨q, hq, rfl⟩ := Option.map_eq_some_iff.mp hb
  exact ⟨p, List.mem_of_mem_head? hp, q, List.mem_of_getLast? hq, hax, hxb⟩

namespace Continuous

/-! ## The first samples -/

/-- where the last of the first samples is taken -/
def lastSample (lower upper : Double) : Double :=
  lower + Double.ofNat intervalCount * ((upper - lower) / Double.ofNat intervalCount)

theorem lastSample_mem_grid (lower upper : Double) : lastSample lower upper ∈ grid lower upper :=
  List.mem_map.mpr ⟨intervalCount, List.mem_range.mpr (Nat.lt_succ_self _), rfl⟩

theorem ofNat_le_intervalCount :
    ∀ i < intervalCount + 1, Float.ofNat 0 ≤ Float.ofNat i ∧
      Float.ofNat i ≤ Float.ofNat intervalCount := by
  decide +kernel

/-- what is added to the lower bound is finite and not negative -/
theorem isFinite_offset (hlower : lower.isFinite = true) (hupper : upper.isFinite = true)
    (hle : lower ≤ upper) (hwidth : (upper - lower).isFinite = true) {i : Nat}
    (hi : i < intervalCount + 1) :
    0 ≤ Number.value ((upper - lower) / Double.ofNat intervalCount).float ∧
      (Double.ofNat i * ((upper - lower) / Double.ofNat intervalCount)).isFinite = true ∧
      0 ≤ Number.value (Double.ofNat i * ((upper - lower) / Double.ofNat intervalCount)).float := by
  have hbounds := (Number.le_iff_value hlower hupper).mp hle
  have hnonneg : 0 ≤ Number.value (upper - lower).float :=
    Number.value_nonneg_of_nearest (Number.nearest_sub hupper hlower) hwidth (by linarith)
  have hcount := isFinite_ofNat intervalCount (Nat.lt_succ_self _)
  have hfinite := isFinite_ofNat i hi
  obtain ⟨hzero, hmost⟩ := ofNat_le_intervalCount i hi
  have hi0 : 0 ≤ Number.value (Float.ofNat i) := by
    have hvalue : Number.value (Float.ofNat 0) = 0 := Number.value_of_zero (by decide)
    rwa [Number.le_iff_value (isFinite_ofNat 0 (Nat.succ_pos _)) hfinite, hvalue] at hzero
  -- no width is larger than the largest double, of which the multiples are finite
  obtain ⟨-, hstep, hoffset⟩ := Number.isFinite_multiple hwidth hnonneg hcount
    value_intervalCount_pos hfinite hi0 ((Number.le_iff_value hfinite hcount).mp hmost)
    (by decide) (by decide)
  exact ⟨hstep, hoffset⟩

theorem grid_between (hlower : lower.isFinite = true) (hupper : upper.isFinite = true)
    (hle : lower ≤ upper) (hwidth : (upper - lower).isFinite = true) {x : Double}
    (hx : x ∈ grid lower upper) : lower ≤ x ∧ x ≤ lastSample lower upper := by
  obtain ⟨i, hi, rfl⟩ := List.mem_map.mp hx
  rw [List.mem_range] at hi
  have hlast := Nat.lt_succ_self intervalCount
  obtain ⟨hstep, hoffset, hnonneg⟩ := isFinite_offset hlower hupper hle hwidth hi
  obtain ⟨-, hmost, -⟩ := isFinite_offset hlower hupper hle hwidth hlast
  refine ⟨(Number.nearest_add hlower hoffset).le_of_le hlower (by linarith), ?_⟩
  exact Number.grid_mono hlower (isFinite_ofNat i hi) (isFinite_ofNat _ hlast)
    (ofNat_le_intervalCount i hi).2 hstep hoffset hmost

/-! ## Every question -/

/-- points from left to right, from `a` to `b` -/
structure Spread (a b : Double) (ps : List Point) : Prop where
  ascending : Ascending (ps.map Point.x)
  within : ∀ p ∈ ps, a ≤ p.x ∧ p.x ≤ b

theorem map_x_eq {α : Type} {place : α → Double} {as : List α}
    (h : List.Forall₂ (fun a p => p.x = place a) as ps) : ps.map Point.x = as.map place := by
  have hmap := List.forall₂_map_left_iff.mpr (List.forall₂_map_right_iff.mpr h.flip)
  rwa [List.forall₂_eq_eq_eq] at hmap

theorem asks_sample {P : Double → Prop} {x : Double} (hx : P x) :
    (sample x).Asks P fun p => x.isFinite = true ∧ p.x = x := by
  refine ⟨hx, fun y => ?_⟩
  show (Sampling.ofExcept (finitePoint procedure x y)).Asks _ _
  cases hp : finitePoint procedure x y with
  | error e => exact trivial
  | ok p =>
    obtain ⟨rfl, hfinite, -⟩ := finitePoint_ok hp
    exact ⟨hfinite, rfl⟩

/-- a pass asks where its points are spread, and spreads its new points there -/
theorem asks_refine {a b : Double} (h : Spread a b ps) :
    (refine isBent sample ps).Asks (fun x => a ≤ x ∧ x ≤ b) (Spread a b) := by
  have hbetween (slot : Slot Point) (hslot : slot ∈ slots isBent ps) : a ≤ slot.x ∧ slot.x ≤ b := by
    obtain ⟨p, hp, q, hq, hpx, hxq⟩ := slots_between h.ascending (List.mem_map_of_mem hslot)
    exact ⟨Number.float_le_trans (h.within p hp).1 hpx, Number.float_le_trans hxq (h.within q hq).2⟩
  have hfill (slot : Slot Point) (hslot : slot ∈ slots isBent ps) :
      (slot.fill sample id).Asks (fun x => a ≤ x ∧ x ≤ b) fun q => q.x = slot.x := by
    cases slot with
    | kept p => exact rfl
    | sampled x => exact (asks_sample (hbetween _ hslot)).mono fun q hq => hq.2
  rw [refine_eq_slots]
  refine (Asks.mapM hfill).mono fun qs hqs => ?_
  have hmap := map_x_eq hqs
  refine ⟨hmap ▸ slots_ascending isBent h.ascending, ?_⟩
  rw [← List.forall_mem_map (P := fun x => a ≤ x ∧ x ≤ b), hmap, List.forall_mem_map]
  exact hbetween

theorem asks_firstSamples (hlower : lower.isFinite = true) (hupper : upper.isFinite = true)
    (hle : lower ≤ upper) (hwidth : (upper - lower).isFinite = true) :
    (firstSamples lower upper).Asks (fun x => lower ≤ x ∧ x ≤ lastSample lower upper)
      (Spread lower (lastSample lower upper)) := by
  have hbetween (x : Double) (hx : x ∈ grid lower upper) :=
    grid_between hlower hupper hle hwidth hx
  rw [firstSamples_eq]
  refine (Asks.mapM fun x hx => asks_sample (hbetween x hx)).mono fun ps hps => ?_
  obtain ⟨hfinite, hplaces⟩ := (List.forall₂_and_left _ _).mp hps
  have hmap : ps.map Point.x = grid lower upper := by rw [map_x_eq hplaces, List.map_id']
  refine ⟨hmap ▸ ascending_grid hlower hupper hle hfinite, ?_⟩
  rw [← List.forall_mem_map (P := fun x => lower ≤ x ∧ x ≤ lastSample lower upper), hmap]
  exact hbetween

theorem asks_polyline (hlower : lower.isFinite = true) (hupper : upper.isFinite = true)
    (hle : lower ≤ upper) (hwidth : (upper - lower).isFinite = true) (n : Nat) :
    (polyline lower upper n).Asks (fun x => lower ≤ x ∧ x ≤ lastSample lower upper)
      (Spread lower (lastSample lower upper)) := by
  induction n with
  | zero => exact (asks_firstSamples hlower hupper hle hwidth).bind fun ps hps => hps
  | succ n ih =>
    rw [polyline_succ]
    exact ih.bind fun ps hps => (asks_refine hps).bind fun qs hqs => hqs

theorem asked_between {bounds : Expr} (hbounds : readBounds bounds = .ok (lower, upper))
    (hwidth : (upper - lower).isFinite = true) (options : Expr)
    (f : List Double → Double → Except EvalError Double) :
    ∀ x ∈ (run bounds options f).asked, lower ≤ x ∧ x ≤ lastSample lower upper := by
  obtain ⟨hlower, hupper, hle⟩ := readBounds_ok hbounds
  suffices h : (plot bounds options).Asks (fun x => lower ≤ x ∧ x ≤ lastSample lower upper)
      fun _ => True from h.asked f []
  rw [plot_eq, hbounds]
  cases hoptions : Options.read procedure options with
  | error e => exact trivial
  | ok o =>
    show (polyline lower upper passCount >>= draw o).Asks _ _
    refine (asks_polyline hlower hupper hle hwidth passCount).bind fun ps _ => ?_
    unfold draw
    cases Extent.ofPoints? ps <;> exact trivial

/-! ## Bounds that are too far from each other -/

theorem float_width_infinite (hlower : lower.isFinite = true) (hupper : upper.isFinite = true)
    (hle : lower ≤ upper) (hwidth : (upper - lower).isFinite = false) :
    (upper - lower).float = Number.packed (.infinity .positive) := by
  have hbounds := (Number.le_iff_value hlower hupper).mp hle
  refine (Number.nearest_sub hupper hlower).eq_infinity (by linarith) ?_
  exact Bool.eq_false_iff.mp hwidth

theorem lastSample_infinite (hlower : lower.isFinite = true) (hupper : upper.isFinite = true)
    (hle : lower ≤ upper) (hwidth : (upper - lower).isFinite = false) :
    (lastSample lower upper).float = Number.packed (.infinity .positive) := by
  show lower.float + Float.ofNat intervalCount *
    ((upper - lower).float / Float.ofNat intervalCount) = _
  rw [float_width_infinite hlower hupper hle hwidth]
  exact Number.add_infinity hlower (by decide) (by decide)

/-- where the last of the first samples lies within the bounds, their distance is finite -/
theorem isFinite_width (hlower : lower.isFinite = true) (hupper : upper.isFinite = true)
    (hle : lower ≤ upper) (hlast : lastSample lower upper ≤ upper) :
    (upper - lower).isFinite = true := by
  refine Bool.eq_true_of_not_eq_false fun hwidth => ?_
  replace hlast : (lastSample lower upper).float ≤ upper.float := hlast
  rw [lastSample_infinite hlower hupper hle hwidth] at hlast
  exact Number.not_infinity_le hupper hlast

/-- the place of the first sample -/
def firstSample (lower upper : Double) : Double :=
  lower + Double.ofNat 0 * ((upper - lower) / Double.ofNat intervalCount)

theorem isNaN_firstSample (hlower : lower.isFinite = true) (hupper : upper.isFinite = true)
    (hle : lower ≤ upper) (hwidth : (upper - lower).isFinite = false) :
    (firstSample lower upper).isNaN = true := by
  refine Number.isNaN_add ?_
  show (Float.ofNat 0 * ((upper - lower).float / Float.ofNat intervalCount)).isNaN = true
  rw [float_width_infinite hlower hupper hle hwidth]
  decide

theorem asked_head? {bounds options : Expr} {o : Options}
    (hbounds : readBounds bounds = .ok (lower, upper))
    (hoptions : Options.read procedure options = .ok o) :
    (run bounds options f).asked[0]? = some (firstSample lower upper) := by
  -- the first samples begin with this question, so the whole sampling does
  obtain ⟨next, hnext⟩ : ∃ next, (polyline lower upper passCount >>= draw o) =
      .ask (firstSample lower upper) next := ⟨_, rfl⟩
  rw [run, plot_eq, hbounds, hoptions]
  show ((polyline lower upper passCount >>= draw o).answerAfter f []).asked[0]? = _
  rw [hnext, Sampling.answerAfter]
  cases f [] (firstSample lower upper) <;> rfl

/-- the first sample is no number, and the plot ends with it -/
theorem asked_of_infinite_width {bounds options : Expr} {o : Options}
    (hbounds : readBounds bounds = .ok (lower, upper))
    (hoptions : Options.read procedure options = .ok o)
    (hwidth : (upper - lower).isFinite = false)
    (f : List Double → Double → Except EvalError Double) :
    ∃ x err, x.isNaN = true ∧ (run bounds options f).asked = [x] ∧
      (run bounds options f).outcome = .error err := by
  obtain ⟨hlower, hupper, hle⟩ := readBounds_ok hbounds
  have hnan := isNaN_firstSample hlower hupper hle hwidth
  have hasked : (run bounds options f).asked[0]? = some (firstSample lower upper) :=
    asked_head? hbounds hoptions
  obtain ⟨err, herr⟩ : ∃ err, Sampling.pointOf (firstSample lower upper)
      (f [] (firstSample lower upper)) = .error err := by
    cases f [] (firstSample lower upper) with
    | error err => exact ⟨err, rfl⟩
    | ok y =>
      refine ⟨_, finitePoint_error (.inl ?_)⟩
      refine Bool.eq_false_of_not_eq_true fun hfinite => ?_
      rw [Double.isNaN, Number.isNaN_eq_false hfinite] at hnan
      cases hnan
  obtain ⟨hlength, hout⟩ := (ensures_plot hbounds hoptions).fault hasked herr
  obtain ⟨x, hx⟩ := List.length_eq_one_iff.mp hlength
  replace hx : (run bounds options f).asked = [x] := hx
  rw [hx] at hasked
  cases hasked
  exact ⟨_, err, hnan, hx, hout⟩

/-! ## Within the bounds -/

theorem grid_prefix_asked {earlier : List Double} {n : Nat}
    (h : ((polyline lower upper n).answerAfter f earlier).outcome = .ok ps) :
    grid lower upper <+: ((polyline lower upper n).answerAfter f earlier).asked := by
  obtain ⟨first, hfirst, -, hasked⟩ := Sampling.bind_ok h
  rw [((ensures_firstSamples lower upper).result hfirst).1] at hasked
  exact ⟨_, hasked.symm⟩

/-- a plot that succeeds has taken all the first samples -/
theorem lastSample_asked {bounds options e : Expr}
    (hbounds : readBounds bounds = .ok (lower, upper))
    (h : (run bounds options f).outcome = .ok e) :
    lastSample lower upper ∈ (run bounds options f).asked := by
  obtain ⟨lower', upper', o, stage, b, hbounds', -, hstages, -, -, hasked⟩ := plot_ok h
  rw [hbounds] at hbounds'
  cases hbounds'
  rw [hasked]
  exact (grid_prefix_asked (hstages passCount le_rfl)).mem (lastSample_mem_grid lower upper)

/-- a function with finite values is plotted if it is asked at finite numbers only -/
theorem outcome_of_asked_finite {bounds options : Expr} {o : Options} (hf : Total f)
    (hbounds : readBounds bounds = .ok (lower, upper))
    (hoptions : Options.read procedure options = .ok o)
    (h : ∀ x ∈ (run bounds options f).asked, x.isFinite = true) :
    ∃ e, (run bounds options f).outcome = .ok e := by
  cases hout : (run bounds options f).outcome with
  | ok e => exact ⟨e, rfl⟩
  | error err =>
    obtain ⟨i, x, hx, hpoint⟩ := (ensures_plot hbounds hoptions).error hout
    have hfinite := h x (List.mem_of_getElem? hx)
    obtain ⟨y, hy, hvalue⟩ := hf ([] ++ ((plot bounds options).answerAfter f []).asked.take i) x
      hfinite
    rw [hy] at hpoint
    replace hpoint : finitePoint procedure x y = .error err := hpoint
    rw [finitePoint_of_finite hfinite hvalue] at hpoint
    cases hpoint

theorem total_zero : Total fun _ _ => .ok 0 := fun _ _ _ => ⟨0, rfl, Number.isFinite_zero⟩

/-- A plot asks for values at finite numbers between its bounds only, whatever the options and the
function are, exactly if the last of the first samples, whose place is rounded four times, does not
lie behind the upper bound.  Everything else is asked between the lower bound and this place, if the
distance of the bounds is finite.  If it is not, a plot asks once, at no number, and fails. -/
theorem plot_within_iff {bounds : Expr} (hbounds : readBounds bounds = .ok (lower, upper)) :
    ((∀ options f, ∀ x ∈ (run bounds options f).asked,
        x.isFinite = true ∧ lower ≤ x ∧ x ≤ upper) ↔ lastSample lower upper ≤ upper) ∧
    ((upper - lower).isFinite = true → ∀ options f, ∀ x ∈ (run bounds options f).asked,
      lower ≤ x ∧ x ≤ lastSample lower upper) ∧
    ((upper - lower).isFinite = false →
      ∀ options o, Options.read procedure options = .ok o → ∀ f,
        ∃ x err, x.isNaN = true ∧ (run bounds options f).asked = [x] ∧
          (run bounds options f).outcome = .error err) := by
  obtain ⟨hlower, hupper, hle⟩ := readBounds_ok hbounds
  refine ⟨⟨fun h => ?_, fun hlast options f x hx => ?_⟩, asked_between hbounds,
    fun hwidth options o hoptions => asked_of_infinite_width hbounds hoptions hwidth⟩
  · -- a plot of a constant that asks at finite numbers only succeeds, and so takes every sample
    have hconstant := h (Expr.list []) fun _ _ => .ok 0
    obtain ⟨e, he⟩ := outcome_of_asked_finite total_zero hbounds rfl fun x hx => (hconstant x hx).1
    exact (hconstant _ (lastSample_asked hbounds he)).2.2
  · have hwidth := isFinite_width hlower hupper hle hlast
    obtain ⟨hfirst, hbehind⟩ := asked_between hbounds hwidth options f x hx
    have hwithin : x ≤ upper := Number.float_le_trans hbehind hlast
    have hfinite : x.isFinite = true :=
      Number.isFinite_of_between hlower hupper (Number.notNaN_of_le hfirst).2 hfirst hwithin
    exact ⟨hfinite, hfirst, hwithin⟩

theorem readBounds_numbers (hlower : lower.isFinite = true) (hupper : upper.isFinite = true)
    (h : ¬ upper ≤ lower) :
    readBounds (Expr.list [Expr.number lower, Expr.number upper]) = .ok (lower, upper) := by
  show (if (decide (upper ≤ lower) || !lower.isFinite || !upper.isFinite) = true then
    Except.error _ else Except.ok (lower, upper)) = _
  rw [if_neg]
  simp [h, hlower, hupper]

/-- the last of the first samples between -1 and 1 is taken at 1; the distance of -1e308 and 1e308
is infinite -/
theorem plot_within_symmetric :
    (∀ options f, ∀ x ∈ (run (Expr.list [Expr.number (-1), Expr.number 1]) options f).asked,
      x.isFinite = true ∧ -1 ≤ x ∧ x ≤ 1) ∧
    lastSample (-1) 1 = 1 ∧
    ∀ f, ∃ x err, x.isNaN = true ∧
      (run (Expr.list [Expr.number (-1e308), Expr.number 1e308]) (Expr.list []) f).asked = [x] ∧
      (run (Expr.list [Expr.number (-1e308), Expr.number 1e308]) (Expr.list []) f).outcome =
        .error err :=
  ⟨(plot_within_iff rfl).1.mpr (by decide), by decide,
    (plot_within_iff (readBounds_numbers (by decide +kernel) (by decide +kernel)
      (by decide +kernel))).2.2 (by decide +kernel) (Expr.list []) _ rfl⟩

/-- the last of the first samples between 0 and 7 is taken behind 7 -/
theorem plot_behind_seven : ∃ x ∈ (run (Expr.list [Expr.number 0, Expr.number 7]) (Expr.list [])
    fun _ _ => .ok 0).asked, 7 < x := by
  have hbounds : readBounds (Expr.list [Expr.number 0, Expr.number 7]) = .ok (0, 7) := rfl
  have hgrid : ∀ x ∈ grid 0 7, x.isFinite = true := by decide +kernel
  obtain ⟨e, he⟩ := plot_answers total_zero hbounds
    (rfl : Options.read procedure (Expr.list []) = .ok _) hgrid
  exact ⟨_, lastSample_asked hbounds he, by decide⟩

end Continuous

end ChartLisp.Plot
