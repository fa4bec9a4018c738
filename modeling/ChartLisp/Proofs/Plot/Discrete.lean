import ChartLisp.Plot.Discrete
import ChartLisp.Proofs.Arguments
import ChartLisp.Proofs.Elementwise
import ChartLisp.Proofs.Plot.Extent

/-!
# What a plot of data points accepts and consists of

* `Point.Shown`, `Setting.Shown`   the expressions that stand for a data point, for an option
* `readPoint_eq_ok`, `Setting.read_eq_ok`   they are those that the readers accept
* `Discrete.Accepted`              the arguments with their points and settings
* `Discrete.plot_eq_ok`            a plot succeeds on these arguments, and shows their scene
* `Discrete.scene_pair`, `Discrete.scene_drop`, `Discrete.length_scene`   the primitives by number
* `Discrete.plot_outcome`          when a plot succeeds, and what it then consists of
-/

namespace ChartLisp.Plot

variable {procedure : String} {e : Expr}

/-! ## Data points and options -/

/-- the list of two finite numbers -/
inductive Point.Shown (e : Expr) (p : Point) : Prop where
  | pair {x y : Expr} (hpair : e.ListOf [x, y]) (hx : x.LeafOf (.number p.x))
      (hy : y.LeafOf (.number p.y)) (hfinite : p.IsFinite)

/-- the list of the coordinates -/
def Point.expr (p : Point) : Expr := Expr.list [Expr.number p.x, Expr.number p.y]

theorem Point.shown_expr {p : Point} (h : p.IsFinite) : p.Shown p.expr :=
  .pair (Expr.listOf_list _) (Expr.leafOf_leaf _) (Expr.leafOf_leaf _) h

theorem finitePoint_eq_ok {x y : Double} {p : Point} :
    finitePoint procedure x y = .ok p ↔ p = ⟨x, y⟩ ∧ p.IsFinite := by
  unfold finitePoint
  split
  · rename_i hfinite
    rw [Except.ok.injEq, eq_comm]
    refine ⟨fun h => ⟨h, ?_⟩, fun h => h.1⟩
    subst h
    exact Bool.and_eq_true_iff.mp hfinite
  · rename_i hfinite
    refine ⟨nofun, fun ⟨h, hp⟩ => absurd (Bool.and_eq_true_iff.mpr ?_) hfinite⟩
    subst h
    exact hp

theorem readPoint_eq_ok {p : Point} : readPoint procedure e = .ok p ↔ p.Shown e := by
  unfold readPoint
  rw [bind_eq_ok]
  constructor
  · rintro ⟨es, hes, h⟩
    rw [Argument.elements_eq_ok] at hes
    split at h
    · simp only [bind_eq_ok, Argument.number_eq_ok, finitePoint_eq_ok] at h
      obtain ⟨x, hx, y, hy, rfl, hfinite⟩ := h
      exact .pair hes hx hy hfinite
    · cases h
  · rintro ⟨hpair, hx, hy, hfinite⟩
    refine ⟨_, Argument.elements_eq_ok.mpr hpair, ?_⟩
    simp only [bind_eq_ok, Argument.number_eq_ok, finitePoint_eq_ok]
    exact ⟨p.x, hx, p.y, hy, rfl, hfinite⟩

theorem Side.ofKey?_eq_some {key : String} {side : Side} :
    Side.ofKey? key = some side ↔ side.key = key := by
  constructor
  · intro h
    simpa using List.find?_some h
  · rintro rfl
    cases side <;> rfl

theorem Side.key_ne_scaleKey (side : Side) : side.key ≠ Setting.scaleKey := by
  cases side <;> decide

namespace Setting

/-- a pair of the key of a text scale and a number, or of the key of a caption and a string -/
inductive Shown (e : Expr) : Setting → Prop where
  | textScale {key value : Expr} {scale : Double} (hpair : e.ListOf [key, value])
      (hkey : key.LeafOf (.string "text-scale")) (hvalue : value.LeafOf (.number scale)) :
      Shown e (.textScale scale)
  | caption {key value : Expr} {side : Side} {text : String} (hpair : e.ListOf [key, value])
      (hkey : key.LeafOf (.string side.key)) (hvalue : value.LeafOf (.string text)) :
      Shown e (.caption ⟨side, text⟩)

theorem ofKey_scale {value : Expr} {s : Setting} :
    ofKey procedure scaleKey value = .ok s ↔
      ∃ scale, value.LeafOf (.number scale) ∧ s = .textScale scale := by
  unfold ofKey
  rw [if_pos rfl, bind_eq_ok]
  simp only [Argument.number_eq_ok, pure, Except.pure, Except.ok.injEq]
  exact exists_congr fun scale => and_congr_right fun _ => eq_comm

theorem ofKey_caption {key : String} {value : Expr} {s : Setting} (hkey : key ≠ scaleKey) :
    ofKey procedure key value = .ok s ↔
      ∃ side text, side.key = key ∧ value.LeafOf (.string text) ∧ s = .caption ⟨side, text⟩ := by
  unfold ofKey
  rw [if_neg hkey]
  simp only [← Side.ofKey?_eq_some, ← Expr.string?_eq_some]
  cases value.string? <;> cases Side.ofKey? key <;> simp [eq_comm]

theorem read_eq_ok {s : Setting} : read procedure e = .ok s ↔ s.Shown e := by
  unfold read
  rw [bind_eq_ok]
  constructor
  · rintro ⟨es, hes, h⟩
    rw [Argument.elements_eq_ok] at hes
    split at h
    · split at h
      · rename_i key value _ k hk
        rw [Expr.string?_eq_some] at hk
        by_cases hscale : k = scaleKey
        · subst hscale
          obtain ⟨scale, hvalue, rfl⟩ := ofKey_scale.mp h
          exact .textScale hes hk hvalue
        · obtain ⟨side, text, rfl, hvalue, rfl⟩ := (ofKey_caption hscale).mp h
          exact .caption hes hk hvalue
      · cases h
    · cases h
  · intro h
    cases h with
    | textScale hpair hkey hvalue =>
      refine ⟨_, Argument.elements_eq_ok.mpr hpair, ?_⟩
      dsimp only
      rw [Expr.string?_eq_some.mpr hkey]
      exact ofKey_scale.mpr ⟨_, hvalue, rfl⟩
    | @caption _ _ side _ hpair hkey hvalue =>
      refine ⟨_, Argument.elements_eq_ok.mpr hpair, ?_⟩
      dsimp only
      rw [Expr.string?_eq_some.mpr hkey]
      exact (ofKey_caption side.key_ne_scaleKey).mpr ⟨side, _, rfl, hvalue, rfl⟩

end Setting

theorem Options.read_eq_ok {o : Options} :
    Options.read procedure e = .ok o ↔ ∃ es settings, e.ListOf es ∧
      List.Forall₂ (fun x s => Setting.Shown x s) es settings ∧ o = ofSettings settings := by
  unfold Options.read
  simp only [bind_eq_ok, Argument.elements_eq_ok, mapM_eq_ok, Setting.read_eq_ok, pure, Except.pure,
    Except.ok.injEq]
  constructor
  · rintro ⟨es, hes, settings, hsettings, rfl⟩
    exact ⟨es, settings, hes, hsettings, rfl⟩
  · rintro ⟨es, settings, hes, hsettings, rfl⟩
    exact ⟨es, hes, settings, hsettings, rfl⟩

namespace Discrete

variable {args : List Expr} {b : Extent} {ps : List Point} {settings : List Setting} {o : Options}

/-! ## Accepted arguments -/

/-- the options that follow the data, if there are any, and their settings -/
inductive AcceptedOptions : List Expr → List Setting → Prop where
  | absent : AcceptedOptions [] []
  | present {options : Expr} {es : List Expr} {settings : List Setting} (hlist : options.ListOf es)
      (hsettings : List.Forall₂ Setting.Shown es settings) : AcceptedOptions [options] settings

/-- a list of data points, at least one, and options -/
inductive Accepted : List Expr → List Point → List Setting → Prop where
  | intro {data : Expr} {rest es : List Expr} {ps : List Point} {settings : List Setting}
      (hlist : data.ListOf es) (hpoints : List.Forall₂ (fun e p => Point.Shown e p) es ps)
      (hne : ps ≠ []) (hoptions : AcceptedOptions rest settings) :
      Accepted (data :: rest) ps settings

theorem Accepted.ne_nil (h : Accepted args ps settings) : ps ≠ [] := by
  cases h
  assumption

theorem Accepted.isFinite (h : Accepted args ps settings) : ∀ p ∈ ps, p.IsFinite := by
  obtain ⟨-, hpoints, -, -⟩ := h
  induction hpoints with
  | nil => exact fun p hp => nomatch hp
  | cons hp _ ih =>
    obtain ⟨-, -, -, hfinite⟩ := hp
    exact List.forall_mem_cons.mpr ⟨hfinite, ih⟩

theorem plotData_eq_ok {data : Expr} :
    plotData data o = .ok e ↔ ∃ es ps b, data.ListOf es ∧
      List.Forall₂ (fun e p => Point.Shown e p) es ps ∧ Extent.ofPoints? ps = some b ∧
      e = Expr.list (scene b ps o) := by
  unfold plotData
  simp only [bind_eq_ok, Argument.elements_eq_ok, mapM_eq_ok, readPoint_eq_ok]
  constructor
  · rintro ⟨es, hes, ps, hps, h⟩
    split at h
    · cases h
    · rename_i b hb
      exact ⟨es, ps, b, hes, hps, hb, (Except.ok.inj h).symm⟩
  · rintro ⟨es, ps, b, hes, hps, hb, rfl⟩
    refine ⟨es, hes, ps, hps, ?_⟩
    rw [hb]
    rfl

theorem plot_eq_ok : plot args = .ok e ↔ ∃ ps settings b, Accepted args ps settings ∧
    Extent.ofPoints? ps = some b ∧ e = Expr.list (scene b ps (.ofSettings settings)) := by
  have hne {ps : List Point} {b : Extent} (hb : Extent.ofPoints? ps = some b) : ps ≠ [] := by
    rintro rfl
    cases hb
  constructor
  · intro h
    match args with
    | [] => cases h
    | [data] =>
      obtain ⟨es, ps, b, hes, hps, hb, rfl⟩ := plotData_eq_ok.mp h
      exact ⟨ps, [], b, .intro hes hps (hne hb) .absent, hb, rfl⟩
    | [data, options] =>
      obtain ⟨o, ho, h⟩ := bind_eq_ok.mp h
      obtain ⟨os, settings, hos, hsettings, rfl⟩ := Options.read_eq_ok.mp ho
      obtain ⟨es, ps, b, hes, hps, hb, rfl⟩ := plotData_eq_ok.mp h
      exact ⟨ps, settings, b, .intro hes hps (hne hb) (.present hos hsettings), hb, rfl⟩
    | _ :: _ :: _ :: _ => cases h
  · rintro ⟨ps, settings, b, @⟨data, _, _, _, _, hes, hps, -, hoptions⟩, hb, rfl⟩
    have hplot : plotData data (.ofSettings settings) =
        .ok (Expr.list (scene b ps (.ofSettings settings))) :=
      plotData_eq_ok.mpr ⟨_, ps, b, hes, hps, hb, rfl⟩
    cases hoptions with
    | absent => exact hplot
    | present hos hsettings =>
      exact bind_eq_ok.mpr ⟨_, Options.read_eq_ok.mpr ⟨_, _, hos, hsettings, rfl⟩, hplot⟩

/-! ## The primitives by number -/

theorem length_stems (b : Extent) (ps : List Point) : (stems b ps).length = 2 * ps.length := by
  induction ps with
  | nil => rfl
  | cons p ps ih =>
    rw [stems, List.flatMap_cons, List.length_append, ← stems, ih, List.length_cons]
    show 2 + 2 * ps.length = _
    omega

theorem stems_pair {i : Nat} {p : Point} (h : ps[i]? = some p) :
    (stems b ps)[2 * i]? = some (point (b.mapX p.x) (b.mapY p.y) markerSize) ∧
      (stems b ps)[2 * i + 1]? = some (line (place (b.mapX p.x) (b.mapY p.y))
        (place (b.mapX p.x) b.stemFoot)) := by
  induction ps generalizing i with
  | nil => cases h
  | cons q ps ih =>
    cases i with
    | zero =>
      cases h
      exact ⟨rfl, rfl⟩
    | succ i =>
      rw [List.getElem?_cons_succ] at h
      exact ih h

theorem scene_pair {i : Nat} {p : Point} (h : ps[i]? = some p) :
    (scene b ps o)[2 * i]? = some (point (b.mapX p.x) (b.mapY p.y) markerSize) ∧
      (scene b ps o)[2 * i + 1]? = some (line (place (b.mapX p.x) (b.mapY p.y))
        (place (b.mapX p.x) b.stemFoot)) := by
  have hi : i < ps.length := (List.getElem?_eq_some_iff.mp h).1
  have hlength := length_stems b ps
  unfold scene
  rw [List.append_assoc, List.append_assoc, List.getElem?_append_left (by omega),
    List.getElem?_append_left (by omega)]
  exact stems_pair h

/-- what stands behind the markers and stems -/
theorem scene_drop (b : Extent) (ps : List Point) (o : Options) :
    (scene b ps o).drop (2 * ps.length) =
      b.borders ++ o.captions b ++ b.cornerLabels o.textScale := by
  unfold scene
  rw [List.append_assoc, List.append_assoc, ← length_stems b ps, List.drop_left, List.append_assoc]

theorem length_scene (b : Extent) (ps : List Point) (o : Options) :
    (scene b ps o).length = 2 * ps.length + 4 + (if b.yMin < 0 ∧ 0 < b.yMax then 1 else 0) +
      (if b.xMin < 0 ∧ 0 < b.xMax then 1 else 0) + o.captionList.length + 4 := by
  have hcaptions : (o.captions b).length = o.captionList.length := List.length_map _
  have hlabels : (b.cornerLabels o.textScale).length = 4 := rfl
  unfold scene
  rw [Extent.borders_eq]
  simp only [List.length_append, length_stems, hcaptions, hlabels, apply_ite List.length,
    List.length_cons, List.length_nil, Nat.zero_add]
  omega

/-- A plot succeeds exactly on a list of points and options, if there are any.  It then shows a
marker and a stem for each point, all stems ending at the same height, and behind them the borders
and axes, the captions in their order and the four numbers of the extent. -/
theorem plot_outcome (args : List Expr) :
    ((∃ e, plot args = .ok e) ↔ ∃ ps settings, Accepted args ps settings) ∧
    ∀ ps settings, Accepted args ps settings → ∃ b out scale, b.Fits ps ∧
      scale = (settings.findSome? Setting.textScale?).getD 1 ∧
      plot args = .ok (Expr.list out) ∧
      out.length = 2 * ps.length + 4 + (if b.yMin < 0 ∧ 0 < b.yMax then 1 else 0) +
        (if b.xMin < 0 ∧ 0 < b.xMax then 1 else 0) +
        (settings.filterMap Setting.caption?).length + 4 ∧
      (∀ i p, ps[i]? = some p →
        out[2 * i]? = some (point (b.mapX p.x) (b.mapY p.y) 0.5) ∧
        out[2 * i + 1]? = some (line (place (b.mapX p.x) (b.mapY p.y))
          (place (b.mapX p.x) b.stemFoot))) ∧
      out.drop (2 * ps.length) =
        [line (place b.left b.top) (place b.right b.top),
          line (place b.left b.bottom) (place b.right b.bottom),
          line (place b.left b.top) (place b.left b.bottom),
          line (place b.right b.top) (place b.right b.bottom)] ++
        (if b.yMin < 0 ∧ 0 < b.yMax then [line (place b.left 0) (place b.right 0)] else []) ++
        (if b.xMin < 0 ∧ 0 < b.xMax then [line (place 0 b.bottom) (place 0 b.top)] else []) ++
        (settings.filterMap Setting.caption?).map (Options.captionAt b scale) ++
        [Extent.cornerLabel scale b.xMin b.left (b.bottom + labelGap),
          Extent.cornerLabel scale b.xMax b.right (b.bottom + labelGap),
          Extent.cornerLabel scale b.yMin (b.left - labelGap) b.bottom,
          Extent.cornerLabel scale b.yMax (b.left - labelGap) b.top] := by
  refine ⟨⟨fun ⟨e, h⟩ => ?_, fun ⟨ps, settings, h⟩ => ?_⟩, fun ps settings h => ?_⟩
  · obtain ⟨ps, settings, -, haccepted, -⟩ := plot_eq_ok.mp h
    exact ⟨ps, settings, haccepted⟩
  · obtain ⟨b, hb⟩ := Extent.exists_ofPoints? h.ne_nil
    exact ⟨_, plot_eq_ok.mpr ⟨ps, settings, b, h, hb, rfl⟩⟩
  · obtain ⟨b, hb⟩ := Extent.exists_ofPoints? h.ne_nil
    refine ⟨b, scene b ps (.ofSettings settings), _, Extent.fits hb h.isFinite, rfl,
      plot_eq_ok.mpr ⟨ps, settings, b, h, hb, rfl⟩, length_scene b ps _, fun i p => scene_pair, ?_⟩
    rw [scene_drop, Extent.borders_eq]
    rfl

/-- two points on either side of the axes, under a title in half size -/
theorem plot_outcome_titled : ∃ (b : Extent) (out : List Expr),
    b.Fits [⟨-1, -1⟩, ⟨1, 1⟩] ∧
    plot [Expr.list [Point.expr ⟨-1, -1⟩, Point.expr ⟨1, 1⟩],
      Expr.list [Expr.list [Expr.string "text-scale", Expr.number 0.5],
        Expr.list [Expr.string "title", Expr.string "corner"]]] = .ok (Expr.list out) ∧
    out[2]? = some (point (b.mapX 1) (b.mapY 1) 0.5) := by
  have hpoint (x : Double) (hx : x.isFinite = true) : Point.Shown (Point.expr ⟨x, x⟩) ⟨x, x⟩ :=
    Point.shown_expr ⟨hx, hx⟩
  have hscale : Setting.Shown (Expr.list [Expr.string "text-scale", Expr.number 0.5])
      (.textScale 0.5) :=
    .textScale (Expr.listOf_list _) (Expr.leafOf_leaf _) (Expr.leafOf_leaf _)
  have htitle : Setting.Shown (Expr.list [Expr.string "title", Expr.string "corner"])
      (.caption ⟨.title, "corner"⟩) :=
    .caption (Expr.listOf_list _) (Expr.leafOf_leaf _) (Expr.leafOf_leaf _)
  have haccepted : Accepted _ [⟨-1, -1⟩, ⟨1, 1⟩] _ :=
    .intro (Expr.listOf_list _)
      (.cons (hpoint (-1) (by decide +kernel)) (.cons (hpoint 1 (by decide +kernel)) .nil))
      (List.cons_ne_nil _ _) (.present (Expr.listOf_list _) (.cons hscale (.cons htitle .nil)))
  obtain ⟨b, out, -, hfits, -, hplot, -, hpairs, -⟩ := (plot_outcome _).2 _ _ haccepted
  exact ⟨b, out, hfits, hplot, (hpairs 1 _ rfl).1⟩

end Discrete

end ChartLisp.Plot
