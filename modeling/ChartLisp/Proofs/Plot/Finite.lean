import ChartLisp.Proofs.Number.Magnitude
import ChartLisp.Proofs.Plot.Discrete

/-!
# When a plot of data points has finite coordinates only

The data are finite, but the factor that stretches them may not be: the side of the square, divided
by a width that is very small, is infinite.  This is the only way in which a coordinate fails to be
finite.

* `coordinates`            the numbers that a primitive is drawn at
* `Narrow`                 a width so small that the factor is infinite
* `isFinite_stretch`       the factor is finite for every other width
* `isFinite_mul_stretch`   and so are the data times the factor
* `Discrete.plot_isFinite_iff`   a plot has finite coordinates only, unless an extent is narrow
-/

namespace ChartLisp.Plot

open Number (value)

/-! ## Coordinates -/

/-- the numbers of a point -/
def numbers (e : Expr) : List Double := e.tail.filterMap Expr.number?

/-- the coordinates of a primitive: those of the ends of a line, of the place of a text, or its own
ones -/
def coordinates (e : Expr) : List Double :=
  let kind := (e.property kindKey).string?
  if kind = some "line" then e.tail.flatMap numbers
  else if kind = some "text" then numbers (e.property "position")
  else numbers e

theorem coordinates_point (x y size : Double) : coordinates (point x y size) = [x, y] := rfl

theorem coordinates_line (x y x' y' : Double) :
    coordinates (line (place x y) (place x' y')) = [x, y, x', y'] := rfl

theorem coordinates_label (text : String) (x y scale rotation : Double) :
    coordinates (label text (place x y) scale rotation) = [x, y] := rfl

/-- every coordinate is a finite number -/
def AllFinite (es : List Expr) : Prop := ∀ e ∈ es, ∀ x ∈ coordinates e, x.isFinite = true

namespace AllFinite

variable {es es' : List Expr} {x y x' y' : Double}

theorem nil : AllFinite [] := fun _ h => nomatch h

theorem append (h : AllFinite es) (h' : AllFinite es') : AllFinite (es ++ es') :=
  List.forall_mem_append.mpr ⟨h, h'⟩

theorem ite {c : Prop} [Decidable c] (h : AllFinite es) : AllFinite (if c then es else []) := by
  split
  · exact h
  · exact nil

theorem point (size : Double) (hx : x.isFinite = true) (hy : y.isFinite = true)
    (h : AllFinite es) : AllFinite (point x y size :: es) := by
  refine List.forall_mem_cons.mpr ⟨?_, h⟩
  rw [coordinates_point]
  simp [hx, hy]

theorem line (hx : x.isFinite = true) (hy : y.isFinite = true) (hx' : x'.isFinite = true)
    (hy' : y'.isFinite = true) (h : AllFinite es) :
    AllFinite (line (place x y) (place x' y') :: es) := by
  refine List.forall_mem_cons.mpr ⟨?_, h⟩
  rw [coordinates_line]
  simp [hx, hy, hx', hy']

theorem label (text : String) (scale rotation : Double) (hx : x.isFinite = true)
    (hy : y.isFinite = true) (h : AllFinite es) :
    AllFinite (label text (place x y) scale rotation :: es) := by
  refine List.forall_mem_cons.mpr ⟨?_, h⟩
  rw [coordinates_label]
  simp [hx, hy]

end AllFinite

/-! ## The factor -/

/-- the width is positive, but so small that the side of the square is too large a multiple of it -/
def Narrow (low high : Double) : Prop :=
  (high - low).isFinite = true ∧ 0 < value (high - low).float ∧
    value (high - low).float ≤ 5 * 2 ^ (-1022 : Int)

section
variable {low high x : Double}

theorem isFinite_side : side.isFinite = true := by decide

theorem value_side : value side.float = 20 := by
  rw [Number.value_eq_mul (m := 5 * 2 ^ 50) (e := -48) (by decide) (by decide)
    (by decide)]
  norm_num

theorem value_side_pos : 0 < value side.float := by
  rw [value_side]
  norm_num

/-- the greatest width that is too small -/
def narrowest : Float := Number.ofMagnitudeBits false (13 * 2 ^ 50)

/-- the least width that is not -/
def leastWide : Float := Number.ofMagnitudeBits false (13 * 2 ^ 50 + 1)

theorem value_narrowest : value narrowest = 5 * 2 ^ (-1022 : Int) := by
  rw [Number.value_eq_mul (m := 5 * 2 ^ 50) (e := -1022 + -50) (by decide)
    (by decide) (by decide), Number.two_zpow_add]
  generalize (2 : ℚ) ^ (-1022 : Int) = unit
  norm_num
  ring

/-- the side of the square over a finite width -/
theorem isFinite_side_div {w : Float} (hw : w.isFinite = true) (hpos : 0 < value w) :
    (side.float / w).isFinite = true ↔ ¬ value w ≤ 5 * 2 ^ (-1022 : Int) := by
  have hdiv := Number.nearest_div isFinite_side hw hpos.ne'
  have hnarrow : narrowest.isFinite = true := by decide
  have hwide : leastWide.isFinite = true := by decide
  rw [← value_narrowest]
  constructor
  · -- the quotient is at least that of the greatest width that is too small
    intro hfinite hle
    have hover : Number.orderKey (side.float / narrowest) = Number.infinityBits := by decide
    have hpos' : 0 < value narrowest := hpos.trans_le hle
    have hmono := (Number.nearest_div isFinite_side hnarrow hpos'.ne').mono hdiv
      (div_le_div_of_nonneg_left value_side_pos.le hpos hle)
    rw [Number.le_iff_orderKey (by decide) hdiv.notNaN, hover] at hmono
    have hkey := ((Number.isFinite_iff_orderKey hdiv.notNaN).mp hfinite).2
    omega
  · intro hgt
    have hkey : Number.orderKey leastWide = Number.orderKey narrowest + 1 := by decide
    have hle : value leastWide ≤ value w := by
      rw [Number.value_le_iff hwide hw, hkey]
      rw [Number.value_le_iff hw hnarrow] at hgt
      omega
    have hpos' : 0 < value leastWide := Number.value_pos (by decide) (by decide)
    have hmono := hdiv.mono (Number.nearest_div isFinite_side hwide hpos'.ne')
      (div_le_div_of_nonneg_left value_side_pos.le hpos' hle)
    have hnonneg := hdiv.le_of_le Number.isFinite_zero
      (Number.value_zero.trans_le (div_nonneg value_side_pos.le hpos.le))
    exact Number.isFinite_of_between Number.isFinite_zero (by decide) hdiv.notNaN hnonneg
      hmono

/-- an infinite width makes the factor zero -/
theorem nearest_stretch_infinite (hpos : 0 < high - low) (hw : ¬ (high - low).isFinite = true) :
    Number.Nearest (side / (high - low)).float 0 :=
  Number.nearest_div_infinite isFinite_side (Number.notNaN_of_le (Number.le_of_lt_float hpos)).2 hw

theorem isFinite_stretch_iff : (Extent.stretch low high).isFinite = true ↔ ¬ Narrow low high := by
  unfold Extent.stretch Narrow
  dsimp only
  by_cases hpos : 0 < high - low
  · rw [if_pos hpos]
    by_cases hw : (high - low).isFinite = true
    · have hvalue := Number.value_pos_of_lt hw hpos
      exact (isFinite_side_div hw hvalue).trans
        (not_congr ⟨fun hle => ⟨hw, hvalue, hle⟩, fun h => h.2.2⟩)
    · have hzero := nearest_stretch_infinite hpos hw
      exact ⟨fun _ h => hw h.1, fun _ => hzero.isFinite_of_abs_le (by rw [abs_zero]; positivity)⟩
  · rw [if_neg hpos]
    refine ⟨fun _ ⟨hw, hvalue, _⟩ => hpos ?_, fun _ => by decide⟩
    refine (Number.lt_iff_value Number.isFinite_zero hw).mpr ?_
    rwa [Number.value_zero]

/-- the ends of an extent are not much closer than they are large -/
theorem abs_value_le_width (hlow : low.isFinite = true) (hhigh : high.isFinite = true)
    (hw : (high - low).isFinite = true) (hpos : 0 < value (high - low).float) :
    max |value low.float| |value high.float| ≤ 2 ^ 55 * value (high - low).float := by
  have hsub : Number.Nearest (high - low).float (value high.float - value low.float) :=
    Number.nearest_sub hhigh hlow
  have hlt : 0 < value high.float - value low.float := by
    by_contra hle
    have hnonpos := hsub.ge_of_ge Number.isFinite_zero (Number.value_zero ▸ not_lt.mp hle)
    rw [Number.le_iff_value hw Number.isFinite_zero, Number.value_zero] at hnonpos
    exact hnonpos.not_gt hpos
  have hne : value high.float ≠ value low.float := fun heq => by
    rw [heq, sub_self] at hlt
    exact lt_irrefl 0 hlt
  obtain ⟨hleast, hhighLe⟩ := Number.abs_value_le_mul_sub hne
  obtain ⟨-, hlowLe⟩ := Number.abs_value_le_mul_sub hne.symm
  rw [abs_sub_comm] at hlowLe
  rw [abs_of_pos hlt] at hleast hhighLe hlowLe
  have hwidth := hsub.le_two_mul_value hw hleast
  exact max_le (by linarith) (by linarith)

theorem value_side_div_le {w : Float} (hw : w.isFinite = true) (hpos : 0 < value w)
    (hs : (side.float / w).isFinite = true) : value (side.float / w) ≤ 40 / value w := by
  have hdiv := Number.nearest_div isFinite_side hw hpos.ne'
  rw [value_side] at hdiv
  have hlarge := (Number.Nearest.self hw).lt_two_zpow hw
  have hleast : (2 : ℚ) ^ Number.leastExponent ≤ 20 / value w := by
    rw [le_div_iff₀ hpos]
    calc (2 : ℚ) ^ Number.leastExponent * value w
        ≤ 2 ^ Number.leastExponent * 2 ^ (1024 : Int) :=
          mul_le_mul_of_nonneg_left hlarge.le (Number.two_zpow_pos _).le
      _ = 2 ^ (-50 : Int) := by rw [← Number.two_zpow_add]; rfl
      _ ≤ 20 := by norm_num
  have hle := hdiv.value_le_two_mul hs hleast
  calc value (side.float / w) ≤ 2 * (20 / value w) := hle
    _ = 40 / value w := by ring

/-- A number that is no larger than the ends of an extent, times the factor.  It does not
grow beyond a fixed multiple of the side. -/
theorem isFinite_mul_stretch (hlow : low.isFinite = true) (hhigh : high.isFinite = true)
    (hx : x.isFinite = true)
    (hbound : |value x.float| ≤ max |value low.float| |value high.float|)
    (hs : (Extent.stretch low high).isFinite = true) :
    (x * Extent.stretch low high).isFinite = true := by
  have hmul := Number.nearest_mul hx hs
  unfold Extent.stretch at hs hmul ⊢
  dsimp only at hs hmul ⊢
  by_cases hpos : 0 < high - low
  · rw [if_pos hpos] at hs hmul ⊢
    by_cases hw : (high - low).isFinite = true
    · have hvalue := Number.value_pos_of_lt hw hpos
      have hnonneg : 0 ≤ value (side / (high - low)).float :=
        Number.value_div_nonneg isFinite_side value_side_pos.le hpos hs
      have hsize := hbound.trans (abs_value_le_width hlow hhigh hw hvalue)
      refine hmul.isFinite_of_abs_le ?_
      calc |value x.float * value (side / (high - low)).float|
          = |value x.float| * value (side / (high - low)).float := by
            rw [abs_mul, abs_of_nonneg hnonneg]
        _ ≤ 2 ^ 55 * value (high - low).float * (40 / value (high - low).float) :=
            mul_le_mul hsize (value_side_div_le hw hvalue hs) hnonneg
              (mul_nonneg (by norm_num) hvalue.le)
        _ = 2 ^ 55 * 40 := by field_simp
        _ ≤ 2 ^ (1023 : Int) := by
            refine le_trans ?_ (zpow_le_zpow_right₀ one_le_two (show (61 : Int) ≤ 1023 by decide))
            norm_num
    · obtain ⟨-, hzero⟩ := (nearest_stretch_infinite hpos hw).exact
        ⟨0, Number.isFinite_zero, Number.value_zero⟩
      rw [hzero, mul_zero] at hmul
      exact hmul.isFinite_of_abs_le (by rw [abs_zero]; positivity)
  · rw [if_neg hpos] at hmul ⊢
    have hone : value (1 : Double).float = 1 := by
      rw [Number.value_eq_mul (m := 2 ^ 52) (e := -52) (by decide) (by decide)
        (by decide)]
      norm_num
    rw [hone, mul_one] at hmul
    exact (hmul.exact ⟨x.float, hx, rfl⟩).1

end

/-! ## The square -/

namespace Extent

variable {b : Extent} {ps : List Point}

/-- the sides of the square are at finite places, in their order -/
structure Bounded (b : Extent) : Prop where
  left : b.left.isFinite = true
  right : b.right.isFinite = true
  top : b.top.isFinite = true
  bottom : b.bottom.isFinite = true
  left_le_right : b.left ≤ b.right
  top_le_bottom : b.top ≤ b.bottom

theorem Fits.isFinite (h : b.Fits ps) (hps : ∀ p ∈ ps, p.IsFinite) :
    (b.xMin.isFinite = true ∧ b.xMax.isFinite = true) ∧
      b.yMin.isFinite = true ∧ b.yMax.isFinite = true := by
  have hx {x : Double} (hmem : x ∈ ps.map Point.x) : x.isFinite = true := by
    obtain ⟨p, hp, rfl⟩ := List.mem_map.mp hmem
    exact (hps p hp).1
  have hy {y : Double} (hmem : y ∈ ps.map Point.y) : y.isFinite = true := by
    obtain ⟨p, hp, rfl⟩ := List.mem_map.mp hmem
    exact (hps p hp).2
  exact ⟨⟨hx h.xMin.1, hx h.xMax.1⟩, hy h.yMin.1, hy h.yMax.1⟩

theorem isFinite_mapX {x : Double} (hmin : b.xMin.isFinite = true) (hmax : b.xMax.isFinite = true)
    (hs : (stretch b.xMin b.xMax).isFinite = true) (hx : x.isFinite = true) (hlo : b.xMin ≤ x)
    (hhi : x ≤ b.xMax) : (b.mapX x).isFinite = true :=
  isFinite_mul_stretch hmin hmax hx (abs_le_max_abs_abs ((Number.le_iff_value hmin hx).mp hlo)
    ((Number.le_iff_value hx hmax).mp hhi)) hs

theorem isFinite_mapY {y : Double} (hmin : b.yMin.isFinite = true) (hmax : b.yMax.isFinite = true)
    (hs : (stretch b.yMin b.yMax).isFinite = true) (hy : y.isFinite = true) (hlo : b.yMin ≤ y)
    (hhi : y ≤ b.yMax) : (b.mapY y).isFinite = true := by
  refine isFinite_mul_stretch hmin hmax (Number.isFinite_neg hy) ?_ hs
  rw [Double.float_neg, Number.abs_value_neg hy]
  exact abs_le_max_abs_abs ((Number.le_iff_value hmin hy).mp hlo)
    ((Number.le_iff_value hy hmax).mp hhi)

theorem mapY_le {y z : Double} (hs : (stretch b.yMin b.yMax).isFinite = true)
    (hy : y.isFinite = true) (hz : z.isFinite = true) (h : y ≤ z) : b.mapY z ≤ b.mapY y :=
  Number.mul_le_mul_float (Number.isFinite_neg hz) (Number.isFinite_neg hy) hs (stretch_nonneg hs)
    (Number.neg_le_neg_float hy hz h)

theorem bounded (hfits : b.Fits ps) (hps : ∀ p ∈ ps, p.IsFinite)
    (hsx : (stretch b.xMin b.xMax).isFinite = true)
    (hsy : (stretch b.yMin b.yMax).isFinite = true) : b.Bounded := by
  obtain ⟨⟨hxMin, hxMax⟩, hyMin, hyMax⟩ := hfits.isFinite hps
  have hx : b.xMin ≤ b.xMax := hfits.xMax.2 hfits.xMin.1
  have hy : b.yMin ≤ b.yMax := hfits.yMax.2 hfits.yMin.1
  have hrefl {x : Double} (hx : x.isFinite = true) : x ≤ x := Double.le_refl_of_finite hx
  exact {
    left := isFinite_mapX hxMin hxMax hsx hxMin (hrefl hxMin) hx
    right := isFinite_mapX hxMin hxMax hsx hxMax hx (hrefl hxMax)
    top := isFinite_mapY hyMin hyMax hsy hyMax hy (hrefl hyMax)
    bottom := isFinite_mapY hyMin hyMax hsy hyMin (hrefl hyMin) hy
    left_le_right := mapX_le hsx hxMin hxMax hx
    top_le_bottom := mapY_le hsy hyMin hyMax hy }

namespace Bounded

theorem isFinite_stemFoot (h : b.Bounded) : b.stemFoot.isFinite = true := by
  unfold stemFoot
  split
  · decide
  · split
    · exact h.bottom
    · exact h.top

theorem allFinite_borders (h : b.Bounded) : AllFinite b.borders := by
  have hzero : (0 : Double).isFinite = true := by decide
  refine .append ?_ (.append (.ite ?_) (.ite ?_))
  · exact .line h.left h.top h.right h.top <| .line h.left h.bottom h.right h.bottom <|
      .line h.left h.top h.left h.bottom <| .line h.right h.top h.right h.bottom .nil
  · exact .line h.left hzero h.right hzero .nil
  · exact .line hzero h.bottom hzero h.top .nil

/-- labels and captions stand a little away from the square -/
theorem isFinite_add_gap {x gap : Double} (hx : x.isFinite = true)
    (hgap : gap = labelGap ∨ gap = captionGap) :
    (x + gap).isFinite = true ∧ (x - gap).isFinite = true := by
  have hpos : 0 ≤ value gap.float := by
    obtain rfl | rfl := hgap <;> exact (Number.value_pos (by decide) (by decide)).le
  constructor
  · refine Number.isFinite_add_of_largest hx ?_ hpos ?_ <;>
      obtain rfl | rfl := hgap <;> decide +kernel
  · refine Number.isFinite_sub_of_largest hx ?_ hpos ?_ <;>
      obtain rfl | rfl := hgap <;> decide +kernel

theorem allFinite_captions (h : b.Bounded) (o : Options) : AllFinite (o.captions b) := by
  have hx := (Number.midpoint_between h.left h.right h.left_le_right).2.2
  have hy := (Number.midpoint_between h.top h.bottom h.top_le_bottom).2.2
  have hgap {x : Double} (hx : x.isFinite = true) := isFinite_add_gap hx (.inr rfl)
  unfold Options.captions
  induction o.captionList with
  | nil => exact .nil
  | cons c cs ih =>
    obtain ⟨side, text⟩ := c
    cases side with
    | title => exact .label text _ _ hx (hgap h.top).2 ih
    | abscissa => exact .label text _ _ hx (hgap h.bottom).1 ih
    | ordinate => exact .label text _ _ (hgap h.left).2 hy ih

theorem allFinite_cornerLabels (h : b.Bounded) (scale : Double) :
    AllFinite (b.cornerLabels scale) := by
  have hgap {x : Double} (hx : x.isFinite = true) := isFinite_add_gap hx (.inl rfl)
  exact .label _ _ _ h.left (hgap h.bottom).1 <| .label _ _ _ h.right (hgap h.bottom).1 <|
    .label _ _ _ (hgap h.left).2 h.bottom <| .label _ _ _ (hgap h.left).2 h.top .nil

end Bounded

end Extent

/-! ## Plots -/

namespace Discrete

variable {b : Extent} {ps : List Point}

theorem allFinite_stems (hfits : b.Fits ps) (hps : ∀ p ∈ ps, p.IsFinite)
    (hsx : (Extent.stretch b.xMin b.xMax).isFinite = true)
    (hsy : (Extent.stretch b.yMin b.yMax).isFinite = true) (qs : List Point) (hqs : qs ⊆ ps) :
    AllFinite (stems b qs) := by
  obtain ⟨⟨hxMin, hxMax⟩, hyMin, hyMax⟩ := hfits.isFinite hps
  have hfoot := (Extent.bounded hfits hps hsx hsy).isFinite_stemFoot
  induction qs with
  | nil => exact .nil
  | cons q qs ih =>
    obtain ⟨hq, hrest⟩ := List.cons_subset.mp hqs
    have hmem := List.mem_map_of_mem (f := Point.x) hq
    have hmem' := List.mem_map_of_mem (f := Point.y) hq
    have hx := Extent.isFinite_mapX hxMin hxMax hsx (hps q hq).1 (hfits.xMin.2 hmem)
      (hfits.xMax.2 hmem)
    have hy := Extent.isFinite_mapY hyMin hyMax hsy (hps q hq).2 (hfits.yMin.2 hmem')
      (hfits.yMax.2 hmem')
    exact .append (.point _ hx hy (.line hx hy hx hfoot .nil)) (ih hrest)

/-- the scene of finite points has finite coordinates if both factors are finite, and only then:
the upper left corner of the square has both of them -/
theorem allFinite_scene_iff (hfits : b.Fits ps) (hps : ∀ p ∈ ps, p.IsFinite) (o : Options) :
    AllFinite (scene b ps o) ↔
      (Extent.stretch b.xMin b.xMax).isFinite = true ∧
        (Extent.stretch b.yMin b.yMax).isFinite = true := by
  constructor
  · intro h
    have hborder : line (place b.left b.top) (place b.right b.top) ∈ scene b ps o :=
      List.mem_append_left _ (List.mem_append_left _ (List.mem_append_right _ List.mem_cons_self))
    have hcorner := h _ hborder
    rw [coordinates_line] at hcorner
    exact ⟨Number.isFinite_of_mul (hcorner b.left (by simp)),
      Number.isFinite_of_mul (hcorner b.top (by simp))⟩
  · rintro ⟨hsx, hsy⟩
    have hb := Extent.bounded hfits hps hsx hsy
    exact .append (.append (.append (allFinite_stems hfits hps hsx hsy ps (List.Subset.refl ps))
      hb.allFinite_borders) (hb.allFinite_captions o)) (hb.allFinite_cornerLabels o.textScale)

theorem accepted_pair {p q : Point} (hp : p.IsFinite) (hq : q.IsFinite) :
    Accepted [Expr.list [p.expr, q.expr]] [p, q] [] :=
  .intro (Expr.listOf_list _) (.cons (Point.shown_expr hp) (.cons (Point.shown_expr hq) .nil))
    (List.cons_ne_nil _ _) .absent

/-- A plot of data points that are accepted succeeds.  Its markers, stems, borders, axes, captions
and labels are at finite coordinates exactly if neither extent of the data is narrow. -/
theorem plot_isFinite_iff {args : List Expr} {settings : List Setting}
    (h : Accepted args ps settings) :
    ∃ b out, Extent.ofPoints? ps = some b ∧ b.Fits ps ∧ plot args = .ok (Expr.list out) ∧
      ((∀ e ∈ out, ∀ x ∈ coordinates e, x.isFinite = true) ↔
        ¬ Narrow b.xMin b.xMax ∧ ¬ Narrow b.yMin b.yMax) := by
  obtain ⟨b, hb⟩ := Extent.exists_ofPoints? h.ne_nil
  have hfits := Extent.fits hb h.isFinite
  refine ⟨b, scene b ps (.ofSettings settings), hb, hfits,
    plot_eq_ok.mpr ⟨ps, settings, b, h, hb, rfl⟩, ?_⟩
  rw [← isFinite_stretch_iff, ← isFinite_stretch_iff]
  exact allFinite_scene_iff hfits h.isFinite _

/-- two points so far apart that their distance is infinite, and on one height -/
theorem plot_isFinite_wide : ∃ out,
    plot [Expr.list [Point.expr ⟨-1e308, 5⟩, Point.expr ⟨1e308, 5⟩]] = .ok (Expr.list out) ∧
      ∀ e ∈ out, ∀ x ∈ coordinates e, x.isFinite = true := by
  have haccepted : Accepted _ [⟨-1e308, 5⟩, ⟨1e308, 5⟩] [] :=
    accepted_pair ⟨by decide +kernel, by decide +kernel⟩ ⟨by decide +kernel, by decide +kernel⟩
  have hextent : Extent.ofPoints? [⟨-1e308, 5⟩, ⟨1e308, 5⟩] = some ⟨-1e308, 1e308, 5, 5⟩ := by
    decide +kernel
  obtain ⟨b, out, hb, -, hplot, hiff⟩ := plot_isFinite_iff haccepted
  obtain rfl := Option.some.inj (hb.symm.trans hextent)
  refine ⟨out, hplot, hiff.mpr ⟨fun h => ?_, fun h => ?_⟩⟩
  · exact absurd h.1 (by decide +kernel)
  · have hzero : value ((5 : Double) - 5).float = 0 := Number.value_of_zero (by decide +kernel)
    exact lt_irrefl 0 (hzero ▸ h.2.1)

/-- of two points that are very close together one is drawn at an infinite abscissa -/
theorem plot_close_overflows : ∃ out,
    plot [Expr.list [Point.expr ⟨0, 0⟩, Point.expr ⟨1e-308, 1⟩]] = .ok (Expr.list out) ∧
      ∃ e ∈ out, ∃ x ∈ coordinates e, x.isFinite = false := by
  have haccepted : Accepted _ [⟨0, 0⟩, ⟨1e-308, 1⟩] [] :=
    accepted_pair ⟨by decide +kernel, by decide +kernel⟩ ⟨by decide +kernel, by decide +kernel⟩
  have hextent : Extent.ofPoints? [⟨0, 0⟩, ⟨1e-308, 1⟩] = some ⟨0, 1e-308, 0, 1⟩ := by
    decide +kernel
  have hmarker : (scene ⟨0, 1e-308, 0, 1⟩ [⟨0, 0⟩, ⟨1e-308, 1⟩] (.ofSettings []))[2]? =
      some (point _ _ markerSize) := (scene_pair (i := 1) rfl).1
  refine ⟨_, plot_eq_ok.mpr ⟨_, [], _, haccepted, hextent, rfl⟩, _, List.mem_of_getElem? hmarker,
    Extent.mapX ⟨0, 1e-308, 0, 1⟩ 1e-308, ?_, by decide +kernel⟩
  rw [coordinates_point]
  exact List.mem_cons_self

end Discrete

end ChartLisp.Plot
