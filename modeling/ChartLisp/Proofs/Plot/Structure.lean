import ChartLisp.Proofs.Plot.Extent
import ChartLisp.Proofs.Plot.Order

/-!
# What a plot of a function consists of

* `segments_eq_range`   the lines of a polyline by number
* `scene_eq`            the parts of a scene in their order
* `read_ok`             options are read setting by setting
* `plot_structure`      the parts of a plot that succeeds, and how often it asks
-/

namespace ChartLisp.Plot.Continuous

variable {f : List Double → Double → Except EvalError Double}

theorem map_range_getD (vs : List Expr) (v : Expr) :
    (List.range vs.length).map (fun i => vs.getD i v) = vs := by
  refine List.ext_getElem (by rw [List.length_map, List.length_range]) fun i _ hi => ?_
  rw [List.getElem_map, List.getElem_range, List.getD_eq_getElem vs v hi]

theorem segments_eq_range (vs : List Expr) (v : Expr) :
    segments vs =
      (List.range (vs.length - 1)).map fun i => line (vs.getD i v) (vs.getD (i + 1) v) := by
  fun_induction segments vs with
  | case1 a b rest ih =>
    rw [ih]
    simp only [List.length_cons, Nat.add_sub_cancel]
    rw [List.range_succ_eq_map, List.map_cons, List.map_map]
    rfl
  | case2 vs hshort =>
    match vs with
    | [] => rfl
    | [a] => rfl
    | a :: b :: rest => exact (hshort _ _ _ rfl).elim

/-- the parts of a scene in their order -/
theorem scene_eq (b : Extent) (ps : List Point) (o : Options) :
    scene b ps o = segments (ps.map b.placed) ++
      o.captionList.map (Options.captionAt b o.textScale) ++
      [line (place b.left b.top) (place b.right b.top),
        line (place b.left b.bottom) (place b.right b.bottom),
        line (place b.left b.top) (place b.left b.bottom),
        line (place b.right b.top) (place b.right b.bottom)] ++
      (if b.yMin < 0 ∧ 0 < b.yMax then [line (place b.left 0) (place b.right 0)] else []) ++
      (if b.xMin < 0 ∧ 0 < b.xMax then [line (place 0 b.bottom) (place 0 b.top)] else []) ++
      b.cornerLabels o.textScale := by
  unfold scene
  rw [Extent.borders_eq]
  simp only [List.append_assoc]
  rfl

theorem read_ok {options : Expr} {o : Options} (h : Options.read procedure options = .ok o) :
    ∃ elements settings, Argument.elements procedure options = .ok elements ∧
      List.Forall₂ (fun x s => Setting.read procedure x = .ok s) elements settings ∧
      o = Options.ofSettings settings := by
  obtain ⟨elements, helements, hrest⟩ := bind_eq_ok.mp h
  obtain ⟨settings, hsettings, hdone⟩ := bind_eq_ok.mp hrest
  cases hdone
  exact ⟨elements, settings, helements, mapM_eq_ok.mp hsettings, rfl⟩

/-- A plot that succeeds.  `stage n` are its points after `n` passes; the lines join their places,
the first of which is that of the first sample and the last of which is that of the 51st. -/
theorem plot_structure {bounds options e : Expr}
    (h : (run bounds options f).outcome = .ok e) :
    ∃ lower upper elements settings o stage b m vertex,
      readBounds bounds = .ok (lower, upper) ∧
      Argument.elements procedure options = .ok elements ∧
      List.Forall₂ (fun x s => Setting.read procedure x = .ok s) elements settings ∧
      o = Options.ofSettings settings ∧
      Stages f lower upper stage ∧ (stage 0).map Point.x = grid lower upper ∧
      Extent.ofPoints? (stage passCount) = some b ∧
      (stage passCount).map b.placed = (List.range (m + 1)).map vertex ∧
      (stage 0)[0]?.map b.placed = some (vertex 0) ∧
      (stage 0)[50]?.map b.placed = some (vertex m) ∧
      2 ≤ m ∧ m ≤ 1600 ∧
      e = Expr.list (
        (List.range m).map (fun i => line (vertex i) (vertex (i + 1))) ++
        (settings.filterMap Setting.caption?).map (Options.captionAt b o.textScale) ++
        [line (place b.left b.top) (place b.right b.top),
          line (place b.left b.bottom) (place b.right b.bottom),
          line (place b.left b.top) (place b.left b.bottom),
          line (place b.right b.top) (place b.right b.bottom)] ++
        (if b.yMin < 0 ∧ 0 < b.yMax then [line (place b.left 0) (place b.right 0)] else []) ++
        (if b.xMin < 0 ∧ 0 < b.xMax then [line (place 0 b.bottom) (place 0 b.top)] else []) ++
        [Extent.cornerLabel o.textScale b.xMin b.left (b.bottom + labelGap),
          Extent.cornerLabel o.textScale b.xMax b.right (b.bottom + labelGap),
          Extent.cornerLabel o.textScale b.yMin (b.left - labelGap) b.bottom,
          Extent.cornerLabel o.textScale b.yMax (b.left - labelGap) b.top]) ∧
      (run bounds options f).asked.length =
        51 + 2 * ((List.range passCount).map fun n => bentCount isBent (stage n)).sum ∧
      51 ≤ (run bounds options f).asked.length ∧
      (run bounds options f).asked.length ≤ 1601 := by
  obtain ⟨lower, upper, o, stage, b, hbounds, hoptions, hstages, hb, rfl, hasked⟩ := plot_ok h
  obtain ⟨elements, settings, helements, hsettings, rfl⟩ := read_ok hoptions
  obtain ⟨hlow, hhigh, hmin, hmax⟩ := polyline_counts (hstages passCount le_rfl)
  obtain ⟨hfirst, hlast⟩ := polyline_ends (hstages 0 (Nat.zero_le _)) (hstages passCount le_rfl)
  obtain ⟨hsamples, -⟩ := polyline_zero_ok (hstages 0 (Nat.zero_le _))
  have hlength := hsamples.length_eq
  rw [length_grid] at hlength
  have hvertex (i : Nat) (hi : i < (stage passCount).length) : (stage passCount)[i]?.map b.placed =
      some (((stage passCount).map b.placed).getD i default) := by
    rw [List.getD_eq_getElem?_getD, List.getElem?_map, List.getElem?_eq_getElem hi]
    rfl
  have hfifty : (stage 0)[50]? = (stage 0).getLast? := by
    rw [List.getLast?_eq_getElem?, ← hlength]
  rw [show 2 ^ passCount = 32 from rfl] at hlow hhigh hmax
  refine ⟨lower, upper, elements, settings, _, stage, b, (stage passCount).length - 1,
    fun i => ((stage passCount).map b.placed).getD i default, hbounds, helements, hsettings, rfl,
    hstages, (onGraph_samples hsamples).1, hb, ?_, ?_, ?_, ?_, ?_, ?_, ?_, ?_, ?_⟩
  · have hplaces := map_range_getD ((stage passCount).map b.placed) default
    rw [List.length_map] at hplaces
    rw [Nat.sub_add_cancel (by omega), hplaces]
  · rw [← List.head?_eq_getElem?, ← hfirst, List.head?_eq_getElem?]
    exact hvertex 0 (by omega)
  · rw [hfifty, ← hlast, List.getLast?_eq_getElem?]
    exact hvertex _ (by omega)
  · omega
  · omega
  · rw [scene_eq, segments_eq_range _ default, List.length_map]
    rfl
  · rw [hasked, hstages.length_asked le_rfl]
  · rw [hasked]
    exact hmin
  · rw [hasked]
    exact hmax

theorem plot_structure_abs : ∃ (e : Expr) (stage : Nat → List Point) (m : Nat) (vertex : Nat → Expr)
    (rest : List Expr),
    (run (Expr.list [Expr.number (-1), Expr.number 1])
      (Expr.list [Expr.list [Expr.string "title", Expr.string "corner"]])
      fun _ x => .ok x.abs).outcome = .ok e ∧
    Stages (fun _ x => .ok x.abs) (-1) 1 stage ∧ 2 ≤ m ∧ m ≤ 1600 ∧
    e = Expr.list ((List.range m).map (fun i => line (vertex i) (vertex (i + 1))) ++ rest) ∧
    (run (Expr.list [Expr.number (-1), Expr.number 1])
      (Expr.list [Expr.list [Expr.string "title", Expr.string "corner"]])
      fun _ x => .ok x.abs).asked.length =
      51 + 2 * ((List.range passCount).map fun n => bentCount isBent (stage n)).sum := by
  obtain ⟨e, he⟩ := plot_abs_answers
  obtain ⟨lower, upper, elements, settings, o, stage, b, m, vertex, hbounds, -, -, -, hstages, -,
    -, -, -, -, hmin, hmax, hparts, hasked, -, -⟩ := plot_structure he
  obtain ⟨rfl, rfl⟩ : (-1, 1) = (lower, upper) := Except.ok.inj hbounds
  simp only [List.append_assoc] at hparts
  exact ⟨e, stage, m, vertex, _, he, hstages, hmin, hmax, hparts, hasked⟩

end ChartLisp.Plot.Continuous
