import ChartLisp.Proofs.Plot.Continuous

/-!
# What a plot asks, and when it fails

A plot asks for one value after the other.  A value that cannot be plotted ends it at once, nothing
else does once the bounds and the options are read, and what it asks next depends on the values it
has got.

* `ensures_polyline`, `ensures_plot`   every value is checked before the next question
* `plot_rejected`                      bounds or options that cannot be used
* `plot_causal`                        the questions of a plot and its failures
-/

namespace ChartLisp.Plot.Continuous

variable {f : List Double → Double → Except EvalError Double} {lower upper : Double}
  {bounds options : Expr}

theorem slots_ne_nil {bent : Point → Point → Point → Bool} {ps : List Point} (h : ps ≠ []) :
    slots bent ps ≠ [] := by
  intro hnil
  have hhead := slots_head? bent ps
  rw [hnil, List.head?_nil, eq_comm, Option.map_eq_none_iff, List.head?_eq_none_iff] at hhead
  exact h hhead

/-- a polyline has points, so that it can be drawn -/
theorem ensures_polyline (lower upper : Double) (n : Nat) :
    (polyline lower upper n).Ensures fun _ ps => ps ≠ [] := by
  induction n with
  | zero =>
    refine (ensures_firstSamples lower upper).bind fun xs ps h => ?_
    refine (Sampling.Ensures.record _).bind fun _ _ _ => ?_
    show ps ≠ []
    exact List.ne_nil_of_length_pos (by rw [h.2]; decide)
  | succ n ih =>
    rw [polyline_succ]
    refine ih.bind fun xs ps hps => (ensures_refine ps).bind fun ys qs hqs => ?_
    refine (Sampling.Ensures.record _).bind fun _ _ _ => ?_
    show qs ≠ []
    rw [← List.length_pos_iff, hqs.2, List.length_pos_iff]
    exact slots_ne_nil hps

theorem ensures_plot {o : Options} (hbounds : readBounds bounds = .ok (lower, upper))
    (hoptions : Options.read procedure options = .ok o) :
    (plot bounds options).Ensures fun _ _ => True := by
  rw [plot_eq, hbounds, hoptions]
  show (polyline lower upper passCount >>= draw o).Ensures _
  refine (ensures_polyline lower upper passCount).bind fun xs ps hps => ?_
  cases ps with
  | nil => exact absurd rfl hps
  | cons p ps => exact trivial

theorem plot_rejected {err : EvalError}
    (h : readBounds bounds = .error err ∨
      (∃ ends, readBounds bounds = .ok ends) ∧ Options.read procedure options = .error err) :
    run bounds options f = ⟨.error err, [], []⟩ := by
  rw [run, plot_eq]
  obtain h | ⟨⟨ends, hbounds⟩, hoptions⟩ := h
  · rw [h]
    rfl
  · rw [hbounds, hoptions]
    rfl

/-- either nothing is asked, or all that can fail is a value -/
theorem plot_cases (bounds options : Expr) (f : List Double → Double → Except EvalError Double) :
    (∃ err, run bounds options f = ⟨.error err, [], []⟩ ∧
      (readBounds bounds = .error err ∨ Options.read procedure options = .error err)) ∨
    (plot bounds options).Ensures fun _ _ => True := by
  cases hbounds : readBounds bounds with
  | error err => exact .inl ⟨err, plot_rejected (.inl hbounds), .inl rfl⟩
  | ok ends =>
    cases hoptions : Options.read procedure options with
    | error err => exact .inl ⟨err, plot_rejected (.inr ⟨⟨ends, hbounds⟩, hoptions⟩), .inr rfl⟩
    | ok o => exact .inr (ensures_plot hbounds hoptions)

theorem finitePoint_error {x y : Double} (h : x.isFinite = false ∨ y.isFinite = false) :
    finitePoint procedure x y = .error (.unusable procedure (.notFinite x y)) := by
  unfold finitePoint
  rw [if_neg]
  obtain h | h := h <;> rw [h] <;> simp

/-- Bounds are read first, then options, and without both nothing is asked.  The first question
whose answer is an error, or that gives no finite point, is the last one, and the plot fails as it
says; nothing else makes it fail.  A function that answers the first questions alike is asked the
same ones, and the same one after them. -/
theorem plot_causal (bounds options : Expr) (f : List Double → Double → Except EvalError Double) :
    (∀ err, readBounds bounds = .error err →
      run bounds options f = ⟨.error err, [], []⟩) ∧
    (∀ ends err, readBounds bounds = .ok ends → Options.read procedure options = .error err →
      run bounds options f = ⟨.error err, [], []⟩) ∧
    (∀ i x, (run bounds options f).asked[i]? = some x →
      (∀ err, f ((run bounds options f).asked.take i) x = .error err →
        (run bounds options f).asked.length = i + 1 ∧
        (run bounds options f).outcome = .error err) ∧
      (∀ y, f ((run bounds options f).asked.take i) x = .ok y →
        (x.isFinite = false ∨ y.isFinite = false) →
        (run bounds options f).asked.length = i + 1 ∧
        (run bounds options f).outcome =
          .error (.unusable procedure (.notFinite x y)))) ∧
    (∀ err, (run bounds options f).outcome = .error err →
      readBounds bounds = .error err ∨ Options.read procedure options = .error err ∨
      ∃ i x, (run bounds options f).asked[i]? = some x ∧
        Sampling.pointOf x (f ((run bounds options f).asked.take i) x) =
          .error err) ∧
    ∀ g k, (∀ i < k, ∀ x, (run bounds options f).asked[i]? = some x →
        ∃ y, f ((run bounds options f).asked.take i) x = .ok y ∧
          g ((run bounds options f).asked.take i) x = .ok y) →
      (run bounds options g).asked.take k =
        (run bounds options f).asked.take k ∧
      ∀ x, (run bounds options f).asked[k]? = some x →
        (run bounds options g).asked[k]? = some x := by
  refine ⟨fun err h => plot_rejected (.inl h),
    fun ends err h h' => plot_rejected (.inr ⟨⟨ends, h⟩, h'⟩), fun i x hx => ?_,
    fun err herr => ?_, fun g k h => Sampling.next_question (plot bounds options) k h⟩
  · obtain ⟨err, hrun, -⟩ | hensures := plot_cases bounds options f
    · rw [hrun] at hx
      cases hx
    · refine ⟨fun err herr => hensures.fault hx ?_, fun y hy hfinite => hensures.fault hx ?_⟩
      · show Sampling.pointOf x (f ((run bounds options f).asked.take i) x) = _
        rw [herr]
        rfl
      · show Sampling.pointOf x (f ((run bounds options f).asked.take i) x) = _
        rw [hy]
        exact finitePoint_error hfinite
  · obtain ⟨err', hrun, hrejected⟩ | hensures := plot_cases bounds options f
    · rw [hrun] at herr
      cases herr
      exact hrejected.imp_right .inl
    · exact .inr (.inr (hensures.error herr))

/-- a function that fails when it is asked for the third time -/
theorem plot_causal_third :
    (run (Expr.list [Expr.number 0, Expr.number 1]) (Expr.list [])
      fun earlier x =>
        if earlier.length = 2 then .error (.argumentCount procedure) else .ok x).asked.length = 3 ∧
    (run (Expr.list [Expr.number 0, Expr.number 1]) (Expr.list [])
      fun earlier x =>
        if earlier.length = 2 then .error (.argumentCount procedure) else .ok x).outcome =
      .error (.argumentCount procedure) :=
  ((plot_causal _ _ _).2.2.1 2 _ rfl).1 _ rfl

end ChartLisp.Plot.Continuous
