import ChartLisp.Proofs.Plot.Discrete
import ChartLisp.Proofs.Plot.Structure

/-!
# What the primitives of a plot show

A primitive is an expression like any other; what is drawn for it is read off its properties.
`shape?` is such a reader, and every primitive of a plot is one that it understands.

* `Shape`           a dot, a line between two dots, or a text at a dot
* `shape?`          the shape that an expression stands for
* `Shape.Drawn`     dots are markers, lines are hairlines, texts have one scale
* `Discrete.plot_shapes`     the shapes of a plot of data points
* `Continuous.plot_shapes`   the shapes of a plot of a function
-/

namespace ChartLisp.Plot

structure Dot where
  place : Point
  size : Double

inductive Shape where
  | dot (d : Dot)
  | line (start stop : Dot) (thickness : Double)
  | text (text : String) (position : Dot) (scale rotation : Double)

def dot? (e : Expr) : Option Dot :=
  match (e.property "object-name").string?, e.elements? with
  | some "point", some [x, y] => do
    return ⟨⟨← x.number?, ← y.number?⟩, ← (e.property "size").number?⟩
  | _, _ => none

def shape? (e : Expr) : Option Shape :=
  match (e.property "object-name").string?, e.elements? with
  | some "line", some [a, b] => do
    return .line (← dot? a) (← dot? b) (← (e.property "thickness").number?)
  | some "text", _ => do
    return .text (← e.string?) (← dot? (e.property "position"))
      (← (e.property "text-scale").number?) (← (e.property "text-rotation").number?)
  | _, _ => (dot? e).map .dot

/-! ## The primitives -/

section Primitives

variable {start stop position : Expr} {p q : Dot}

theorem dot?_point (x y size : Double) : dot? (point x y size) = some ⟨⟨x, y⟩, size⟩ := rfl

theorem shape?_point (x y size : Double) : shape? (point x y size) = some (.dot ⟨⟨x, y⟩, size⟩) :=
  rfl

theorem shape?_line (hp : dot? start = some p) (hq : dot? stop = some q) :
    shape? (line start stop) = some (.line p q 0) := by
  show (do return Shape.line (← dot? start) (← dot? stop) 0) = _
  rw [hp, hq]
  rfl

theorem shape?_label (h : dot? position = some p) (text : String) (scale rotation : Double) :
    shape? (label text position scale rotation) = some (.text text p scale rotation) := by
  show (do return Shape.text text (← dot? position) scale rotation) = _
  rw [h]
  rfl

end Primitives

namespace Shape

/-- how the shapes of a plot are drawn -/
inductive Drawn (scale : Double) : Shape → Prop
  | marker (p : Point) : Drawn scale (.dot ⟨p, 0.5⟩)
  | hairline (p q : Point) : Drawn scale (.line ⟨p, 0⟩ ⟨q, 0⟩ 0)
  | level (text : String) (p : Point) : Drawn scale (.text text ⟨p, 0⟩ scale 0)
  | upright (text : String) (p : Point) : Drawn scale (.text text ⟨p, 0⟩ scale quarterTurn)

def dot? : Shape → Option Dot
  | .dot d => some d
  | _ => none

def text? : Shape → Option String
  | .text t _ _ _ => some t
  | _ => none

end Shape

def dots (es : List Expr) : List Dot := es.filterMap fun e => (shape? e).bind Shape.dot?

def texts (es : List Expr) : List String := es.filterMap fun e => (shape? e).bind Shape.text?

theorem dots_append (es es' : List Expr) : dots (es ++ es') = dots es ++ dots es' :=
  List.filterMap_append

theorem texts_append (es es' : List Expr) : texts (es ++ es') = texts es ++ texts es' :=
  List.filterMap_append

/-- `e` is a primitive of a plot whose texts have the given scale -/
def Shaped (scale : Double) (e : Expr) : Prop := ∃ s, shape? e = some s ∧ s.Drawn scale

/-! ## Lines -/

def IsHairline (e : Expr) : Prop := ∃ p q, shape? e = some (.line ⟨p, 0⟩ ⟨q, 0⟩ 0)

theorem isHairline_line (x y x' y' : Double) : IsHairline (line (place x y) (place x' y')) :=
  ⟨⟨x, y⟩, ⟨x', y'⟩, shape?_line (dot?_point ..) (dot?_point ..)⟩

theorem IsHairline.shaped {e : Expr} (h : IsHairline e) (scale : Double) : Shaped scale e := by
  obtain ⟨p, q, he⟩ := h
  exact ⟨_, he, .hairline p q⟩

section Hairlines

variable {es : List Expr} (h : ∀ e ∈ es, IsHairline e)
include h

theorem dots_of_isHairline : dots es = [] := by
  refine List.filterMap_eq_nil_iff.mpr fun e he => ?_
  obtain ⟨p, q, hline⟩ := h e he
  rw [hline]
  rfl

theorem texts_of_isHairline : texts es = [] := by
  refine List.filterMap_eq_nil_iff.mpr fun e he => ?_
  obtain ⟨p, q, hline⟩ := h e he
  rw [hline]
  rfl

end Hairlines

theorem isHairline_borders (b : Extent) : ∀ e ∈ b.borders, IsHairline e := by
  intro e he
  simp only [Extent.borders, Extent.axes, List.mem_append, List.mem_cons, List.not_mem_nil,
    or_false, List.mem_ite_nil_right] at he
  rcases he with (rfl | rfl | rfl | rfl) | ⟨-, rfl⟩ | ⟨-, rfl⟩ <;> exact isHairline_line ..

theorem isHairline_segments (b : Extent) (ps : List Point) :
    ∀ e ∈ Continuous.segments (ps.map b.placed), IsHairline e := by
  induction ps with
  | nil => exact List.forall_mem_nil _
  | cons p ps ih =>
    cases ps with
    | nil => exact List.forall_mem_nil _
    | cons q ps => exact List.forall_mem_cons.mpr ⟨isHairline_line .., ih⟩

/-! ## Texts -/

def IsText (scale : Double) (text : String) (e : Expr) : Prop :=
  ∃ p rotation, shape? e = some (.text text p scale rotation) ∧
    Shape.Drawn scale (.text text p scale rotation)

theorem IsText.shaped {scale : Double} {text : String} {e : Expr} (h : IsText scale text e) :
    Shaped scale e := by
  obtain ⟨p, rotation, he, hdrawn⟩ := h
  exact ⟨_, he, hdrawn⟩

section Texts

variable {scale : Double} {ts : List String} {es : List Expr}
  (h : List.Forall₂ (IsText scale) ts es)
include h

theorem shaped_of_isText : ∀ e ∈ es, Shaped scale e := by
  induction h with
  | nil => exact List.forall_mem_nil _
  | cons h _ ih => exact List.forall_mem_cons.mpr ⟨h.shaped, ih⟩

theorem dots_of_isText : dots es = [] := by
  induction h with
  | nil => rfl
  | cons h _ ih =>
    obtain ⟨p, rotation, he, -⟩ := h
    rw [dots, List.filterMap_cons_none (by rw [he]; rfl)]
    exact ih

theorem texts_of_isText : texts es = ts := by
  induction h with
  | nil => rfl
  | cons h _ ih =>
    obtain ⟨p, rotation, he, -⟩ := h
    rw [texts, List.filterMap_cons_some (by rw [he]; rfl)]
    exact congrArg _ ih

end Texts

theorem isText_captionAt (b : Extent) (scale : Double) (c : Caption) :
    IsText scale c.text (Options.captionAt b scale c) := by
  obtain ⟨side, text⟩ := c
  cases side with
  | title => exact ⟨_, _, shape?_label (dot?_point ..) .., .level ..⟩
  | abscissa => exact ⟨_, _, shape?_label (dot?_point ..) .., .level ..⟩
  | ordinate => exact ⟨_, _, shape?_label (dot?_point ..) .., .upright ..⟩

theorem isText_captions (o : Options) (b : Extent) :
    List.Forall₂ (IsText o.textScale) (o.captionList.map Caption.text) (o.captions b) := by
  refine List.forall₂_map_left_iff.mpr (List.forall₂_map_right_iff.mpr ?_)
  exact List.forall₂_same.mpr fun c _ => isText_captionAt b o.textScale c

theorem isText_cornerLabel (scale value x y : Double) :
    IsText scale (Extent.labelText value) (Extent.cornerLabel scale value x y) :=
  ⟨_, _, shape?_label (dot?_point ..) .., .level ..⟩

theorem isText_cornerLabels (b : Extent) (scale : Double) :
    List.Forall₂ (IsText scale) ([b.xMin, b.xMax, b.yMin, b.yMax].map Extent.labelText)
      (b.cornerLabels scale) :=
  .cons (isText_cornerLabel ..) (.cons (isText_cornerLabel ..)
    (.cons (isText_cornerLabel ..) (.cons (isText_cornerLabel ..) .nil)))

/-! ## Plots of data points -/

namespace Discrete

def marker (b : Extent) (p : Point) : Dot := ⟨⟨b.mapX p.x, b.mapY p.y⟩, 0.5⟩

theorem shaped_stems (b : Extent) (ps : List Point) (scale : Double) :
    ∀ e ∈ stems b ps, Shaped scale e := by
  intro e he
  obtain ⟨p, -, he⟩ := List.mem_flatMap.mp he
  obtain rfl | he := List.mem_cons.mp he
  · exact ⟨_, shape?_point .., .marker _⟩
  · rw [List.mem_singleton.mp he]
    exact (isHairline_line ..).shaped scale

theorem dots_stems (b : Extent) (ps : List Point) : dots (stems b ps) = ps.map (marker b) := by
  induction ps with
  | nil => rfl
  | cons p ps ih =>
    rw [stems, List.flatMap_cons, dots_append, ← stems, ih]
    rfl

theorem texts_stems (b : Extent) (ps : List Point) : texts (stems b ps) = [] := by
  induction ps with
  | nil => rfl
  | cons p ps ih =>
    rw [stems, List.flatMap_cons, texts_append, ← stems, ih]
    rfl

/-- Every primitive of a plot is drawn; its dots are the data points and its texts the captions and
the numbers of the extent, each in their order. -/
theorem plot_shapes {args : List Expr} {e : Expr} (h : plot args = .ok e) :
    ∃ ps settings b out, Accepted args ps settings ∧ Extent.ofPoints? ps = some b ∧
      e = Expr.list out ∧
      (∀ x ∈ out, Shaped ((settings.findSome? Setting.textScale?).getD 1) x) ∧
      dots out = ps.map (marker b) ∧
      texts out = (settings.filterMap Setting.caption?).map Caption.text ++
        [b.xMin, b.xMax, b.yMin, b.yMax].map Extent.labelText := by
  obtain ⟨ps, settings, b, haccepted, hb, rfl⟩ := plot_eq_ok.mp h
  have hborders := isHairline_borders b
  have hcaptions := isText_captions (.ofSettings settings) b
  have hlabels := isText_cornerLabels b (Options.ofSettings settings).textScale
  refine ⟨ps, settings, b, _, haccepted, hb, rfl, ?_, ?_, ?_⟩
  · refine List.forall_mem_append.mpr ⟨List.forall_mem_append.mpr
      ⟨List.forall_mem_append.mpr ⟨shaped_stems b ps _, fun x hx => ?_⟩, ?_⟩, ?_⟩
    · exact (hborders x hx).shaped _
    · exact shaped_of_isText hcaptions
    · exact shaped_of_isText hlabels
  · simp only [scene, dots_append, dots_stems, dots_of_isHairline hborders,
      dots_of_isText hcaptions, dots_of_isText hlabels, List.append_nil]
  · simp only [scene, texts_append, texts_stems, texts_of_isHairline hborders,
      texts_of_isText hcaptions, texts_of_isText hlabels, List.nil_append]
    rfl

end Discrete

/-! ## Plots of a function -/

namespace Continuous

variable {f : List Double → Double → Except EvalError Double}

/-- The plot of a function has no dots. -/
theorem plot_shapes {bounds options e : Expr} (h : (run bounds options f).outcome = .ok e) :
    ∃ (o : Options) (b : Extent) (out : List Expr), Options.read procedure options = .ok o ∧ e = Expr.list out ∧
      (∀ x ∈ out, Shaped o.textScale x) ∧ dots out = [] ∧
      texts out = o.captionList.map Caption.text ++
        [b.xMin, b.xMax, b.yMin, b.yMax].map Extent.labelText := by
  obtain ⟨-, -, o, stage, b, -, hoptions, -, -, rfl, -⟩ := plot_ok h
  have hsegments := isHairline_segments b (stage passCount)
  have hborders := isHairline_borders b
  have hcaptions := isText_captions o b
  have hlabels := isText_cornerLabels b o.textScale
  refine ⟨o, b, _, hoptions, rfl, ?_, ?_, ?_⟩
  · refine List.forall_mem_append.mpr ⟨List.forall_mem_append.mpr
      ⟨List.forall_mem_append.mpr ⟨fun x hx => ?_, ?_⟩, fun x hx => ?_⟩, ?_⟩
    · exact (hsegments x hx).shaped _
    · exact shaped_of_isText hcaptions
    · exact (hborders x hx).shaped _
    · exact shaped_of_isText hlabels
  · have hlines : dots (segments ((stage passCount).map b.placed)) = [] :=
      dots_of_isHairline hsegments
    simp only [scene, dots_append, dots_of_isHairline hborders, dots_of_isText hcaptions,
      dots_of_isText hlabels, List.append_nil]
    exact hlines
  · have hlines : texts (segments ((stage passCount).map b.placed)) = [] :=
      texts_of_isHairline hsegments
    simp only [scene, texts_append, texts_of_isHairline hborders, texts_of_isText hcaptions,
      texts_of_isText hlabels, List.append_nil]
    exact congrArg (· ++ _ ++ _) hlines

end Continuous

end ChartLisp.Plot
