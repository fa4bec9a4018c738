import ChartLisp.Proofs.Application
import ChartLisp.Proofs.Outcome
import ChartLisp.Proofs.Plot.Discrete
import ChartLisp.Proofs.Plot.Structure

/-!
# Options of a plot, in whatever order they come

Captions and text scales are read from one list, and neither depends on where the others stand in
it: the captions are those of the caption entries in their order, and the text scale is that of the
first entry for it.  Options that are left out are no options.

* `isCaptionEntry`, `isScaleEntry`   the two kinds of entries, by their keys
* `read_iff`                         what is read from a list of entries, entry by entry
* `Reordered`, `read_reordered`      the kinds may be interleaved differently
* `Labelled`                         the texts of a plot are its captions and corner labels, drawn
                                     at one scale
* `eval_discretePlot_omitted`, `eval_continuousPlot_omitted`   options that are left out
* `plot_options`                     all of this, for both kinds of plots
-/

namespace ChartLisp

open ChartLisp.Action (Sim)
open ChartLisp.Comparison (plain_sim_iff)

namespace Plot

variable {procedure : String} {e : Expr} {es : List Expr} {o : Options}

/-! ## Entries -/

/-- the key of an entry -/
def entryKey? (e : Expr) : Option String := e.tail.head?.bind Expr.string?

/-- what an entry sets its key to -/
def entryValue? (e : Expr) : Option Expr := e.tail[1]?

def isCaptionEntry (e : Expr) : Bool :=
  decide (entryKey? e ∈ [some "title", some "abscissa-label", some "ordinate-label"])

def isScaleEntry (e : Expr) : Bool := decide (entryKey? e = some "text-scale")

def captionOf? (e : Expr) : Option Caption := do
  let side ← Side.ofKey? (← entryKey? e)
  let text ← (← entryValue? e).string?
  return ⟨side, text⟩

/-- the number of an entry, whatever its key is -/
def numberOf? (e : Expr) : Option Double := (entryValue? e).bind Expr.number?

/-- the number of the first text scale; one if there is none -/
def firstScale (es : List Expr) : Double := ((es.find? isScaleEntry).bind numberOf?).getD 1

theorem entryKey?_of_pair {key value : Expr} {k : String} (hpair : e.ListOf [key, value])
    (hkey : key.LeafOf (.string k)) : entryKey? e = some k := by
  rw [entryKey?, hpair.tail]
  exact Expr.string?_eq_some.mpr hkey

theorem entryValue?_of_pair {key value : Expr} (hpair : e.ListOf [key, value]) :
    entryValue? e = some value := by
  rw [entryValue?, hpair.tail]
  rfl

namespace Setting.Shown

theorem caption? {s : Setting} (h : s.Shown e) : s.caption? = captionOf? e := by
  unfold captionOf?
  cases h with
  | textScale hpair hkey hvalue =>
    rw [entryKey?_of_pair hpair hkey]
    rfl
  | @caption _ _ side _ hpair hkey hvalue =>
    have hside : Side.ofKey? side.key = some side := Side.ofKey?_eq_some.mpr rfl
    rw [entryKey?_of_pair hpair hkey, entryValue?_of_pair hpair]
    simp only [Option.bind_eq_bind, Option.bind_some, hside, Expr.string?_eq_some.mpr hvalue]
    rfl

theorem numberOf? {scale : Double} (h : (Setting.textScale scale).Shown e) :
    isScaleEntry e = true ∧ numberOf? e = some scale := by
  cases h with
  | textScale hpair hkey hvalue =>
    refine ⟨decide_eq_true (entryKey?_of_pair hpair hkey), ?_⟩
    rw [Plot.numberOf?, entryValue?_of_pair hpair]
    exact Expr.number?_eq_some.mpr hvalue

theorem notScale {c : Caption} (h : (Setting.caption c).Shown e) : isScaleEntry e = false := by
  cases h with
  | @caption _ _ side _ hpair hkey hvalue =>
    refine decide_eq_false fun hscale => side.key_ne_scaleKey ?_
    rw [entryKey?_of_pair hpair hkey] at hscale
    exact Option.some_inj.mp hscale

end Setting.Shown

/-- captions are read from caption entries only -/
theorem isCaptionEntry_of_captionOf? {c : Caption} (h : captionOf? e = some c) :
    isCaptionEntry e = true := by
  unfold captionOf? at h
  simp only [Option.bind_eq_bind, Option.bind_eq_some_iff] at h
  obtain ⟨key, hkey, side, hside, -⟩ := h
  rw [Side.ofKey?_eq_some] at hside
  rw [isCaptionEntry, hkey, ← hside]
  cases side <;> rfl

/-! ## Lists of entries -/

theorem filterMap_caption? {settings : List Setting} (h : List.Forall₂ Setting.Shown es settings) :
    settings.filterMap Setting.caption? = es.filterMap captionOf? := by
  induction h with
  | nil => rfl
  | cons hs _ ih => rw [List.filterMap_cons, List.filterMap_cons, hs.caption?, ih]

theorem findSome?_textScale? {settings : List Setting}
    (h : List.Forall₂ Setting.Shown es settings) :
    (settings.findSome? Setting.textScale?).getD 1 = firstScale es := by
  unfold firstScale
  induction h with
  | nil => rfl
  | @cons e s _ _ hs _ ih =>
    rw [List.findSome?_cons, List.find?_cons]
    cases s with
    | caption c =>
      rw [hs.notScale]
      exact ih
    | textScale scale =>
      rw [hs.numberOf?.1]
      show scale = ((numberOf? e).getD 1)
      rw [hs.numberOf?.2]
      rfl

/-- options are read if every entry can be, and consist of the captions in their order and the first
text scale -/
theorem read_iff (hlist : e.ListOf es) :
    Options.read procedure e = .ok o ↔
      (∀ x ∈ es, ∃ s, Setting.Shown x s) ∧ o = ⟨es.filterMap captionOf?, firstScale es⟩ := by
  have hsettings {settings : List Setting} (h : List.Forall₂ Setting.Shown es settings) :
      Options.ofSettings settings = ⟨es.filterMap captionOf?, firstScale es⟩ := by
    rw [Options.ofSettings, filterMap_caption? h, findSome?_textScale? h]
  rw [Options.read_eq_ok, ← exists_forall₂_iff]
  constructor
  · rintro ⟨es', settings, hlist', h, rfl⟩
    obtain rfl : es = es' := hlist.tail.symm.trans hlist'.tail
    exact ⟨⟨settings, h⟩, hsettings h⟩
  · rintro ⟨⟨settings, h⟩, rfl⟩
    exact ⟨es, settings, hlist, h, (hsettings h).symm⟩

/-- the same entries, those for captions in their order and those for text scales in theirs -/
structure Reordered (es es' : List Expr) : Prop where
  perm : es'.Perm es
  captions : es'.filter isCaptionEntry = es.filter isCaptionEntry
  scales : es'.filter isScaleEntry = es.filter isScaleEntry

theorem filterMap_filter_captions (es : List Expr) :
    (es.filter isCaptionEntry).filterMap captionOf? = es.filterMap captionOf? := by
  rw [List.filterMap_filter]
  refine List.filterMap_congr fun x _ => ?_
  split
  · rfl
  · rename_i hcaption
    exact (Option.eq_none_iff_forall_not_mem.mpr fun c hc =>
      hcaption (isCaptionEntry_of_captionOf? hc)).symm

theorem read_reordered {es' : List Expr} {e' : Expr} {procedure' : String} (h : Reordered es es')
    (hlist : e.ListOf es) (hlist' : e'.ListOf es') (hread : Options.read procedure e = .ok o) :
    Options.read procedure' e' = .ok o := by
  obtain ⟨hshown, rfl⟩ := (read_iff hlist).mp hread
  refine (read_iff hlist').mpr ⟨fun x hx => hshown x (h.perm.mem_iff.mp hx), ?_⟩
  unfold firstScale
  rw [← filterMap_filter_captions es, ← filterMap_filter_captions es', h.captions,
    ← List.head?_filter, ← List.head?_filter, h.scales]

/-! ## Texts -/

def isText (e : Expr) : Bool := decide ((e.property kindKey).string? = some "text")

/-- a text drawn at this scale -/
structure TextAt (scale : Double) (e : Expr) : Prop where
  isText : isText e = true
  scale : e.property "text-scale" = Expr.number scale

theorem textAt_label (text : String) (position : Expr) (scale rotation : Double) :
    TextAt scale (label text position scale rotation) := ⟨rfl, rfl⟩

theorem textAt_captions (o : Options) (b : Extent) :
    ∀ t ∈ o.captions b, TextAt o.textScale t := by
  refine List.forall_mem_map.mpr fun c _ => ?_
  unfold Options.captionAt
  cases c.side <;> exact textAt_label _ _ _ _

theorem textAt_cornerLabels (b : Extent) (scale : Double) :
    ∀ t ∈ b.cornerLabels scale, TextAt scale t := by
  unfold Extent.cornerLabels
  simp only [List.forall_mem_cons]
  exact ⟨textAt_label _ _ _ _, textAt_label _ _ _ _, textAt_label _ _ _ _, textAt_label _ _ _ _,
    List.forall_mem_nil _⟩

theorem filter_isText_borders (b : Extent) : b.borders.filter isText = [] := by
  unfold Extent.borders Extent.axes
  cases b.hasXAxis <;> cases b.hasYAxis <;> rfl

theorem filter_isText_segments (vs : List Expr) : (Continuous.segments vs).filter isText = [] := by
  fun_induction Continuous.segments vs with
  | case1 a b rest ih => exact ih
  | case2 vs _ => rfl

theorem filter_isText_stems (b : Extent) (ps : List Point) :
    (Discrete.stems b ps).filter isText = [] := by
  induction ps with
  | nil => rfl
  | cons p ps ih => exact ih

theorem filter_isText_texts (b : Extent) (o : Options) :
    (o.captions b ++ b.cornerLabels o.textScale).filter isText =
      o.captions b ++ b.cornerLabels o.textScale := by
  refine List.filter_eq_self.mpr (List.forall_mem_append.mpr ⟨fun t ht => ?_, fun t ht => ?_⟩)
  · exact (textAt_captions o b t ht).isText
  · exact (textAt_cornerLabels b o.textScale t ht).isText

/-- The texts of a plot are the captions, then the labels at the corners, all at one scale. -/
def Labelled (captions : List Caption) (scale : Double) (e : Expr) : Prop :=
  ∃ b : Extent, e.tail.filter isText =
      captions.map (Options.captionAt b scale) ++ b.cornerLabels scale ∧
    ∀ t ∈ e.tail.filter isText, t.property "text-scale" = Expr.number scale

theorem labelled_of_filter {b : Extent} {parts : List Expr}
    (h : parts.filter isText = o.captions b ++ b.cornerLabels o.textScale) :
    Labelled o.captionList o.textScale (Expr.list parts) := by
  refine ⟨b, h, ?_⟩
  show ∀ t ∈ parts.filter isText, _
  rw [h, List.forall_mem_append]
  exact ⟨fun t ht => (textAt_captions o b t ht).scale,
    fun t ht => (textAt_cornerLabels b o.textScale t ht).scale⟩

theorem labelled_discrete (b : Extent) (ps : List Point) (o : Options) :
    Labelled o.captionList o.textScale (Expr.list (Discrete.scene b ps o)) := by
  refine labelled_of_filter (b := b) ?_
  rw [Discrete.scene, List.append_assoc, List.filter_append, filter_isText_texts,
    List.filter_append, filter_isText_stems, filter_isText_borders]
  rfl

theorem labelled_continuous (b : Extent) (ps : List Point) (o : Options) :
    Labelled o.captionList o.textScale (Expr.list (Continuous.scene b ps o)) := by
  have htexts := filter_isText_texts b o
  rw [List.filter_append] at htexts
  refine labelled_of_filter (b := b) ?_
  rw [Continuous.scene, List.filter_append, List.filter_append, List.filter_append,
    filter_isText_segments, filter_isText_borders, List.append_nil, List.nil_append, htexts]

/-! ## Options that are left out -/

theorem read_empty (h : e.ListOf []) : Options.read procedure e = .ok Options.default :=
  (read_iff h).mpr ⟨List.forall_mem_nil _, rfl⟩

theorem discretePlot_eq (data options : Expr) : Discrete.plot [data, options] =
    Options.read Discrete.procedure options >>= Discrete.plotData data := rfl

theorem discretePlot_empty (h : e.ListOf []) (data : Expr) :
    Discrete.plot [data, e] = Discrete.plot [data] := by
  rw [discretePlot_eq, read_empty h]
  rfl

end Plot

/-- the same outcome and the same definitions -/
def EndAlike (x y : Except EvalError Expr × Run) : Prop := x.1 = y.1 ∧ x.2.scope = y.2.scope

theorem Action.Agree.endAlike {x y : Except EvalError Expr × Run}
    (h : Agree (fun _ => False) Eq Eq x y) : EndAlike x y := by
  cases h with
  | stopped hs => exact hs.elim
  | ok hv hl => exact ⟨congrArg Except.ok hv, hl.scope⟩
  | error hl => exact ⟨rfl, hl.scope⟩

/-- after an evaluation that came to a value the empty list evaluates to itself -/
theorem exec_eval_empty {depth : Nat} {e v : Expr} {r r' : Run}
    (h : (eval depth e).exec r = (.ok v, r')) :
    (eval depth (Expr.list [])).exec r' =
      (.ok (Expr.list []), { r' with log := .callingBuiltin Expr.listName 0 :: r'.log }) := by
  have hcalm : r.raised = false := calm_of_exec_ok (congrArg Prod.fst h)
  have hcalm' : r'.raised = false := by
    have hraised := ((eval_course depth e r).raised hcalm).1
    rwa [h] at hraised
  cases depth with
  | zero =>
    rw [exec_eval_zero e hcalm] at h
    cases h
  | succ depth =>
    rw [exec_eval_succ depth _ hcalm', Eval.node_list]
    rfl

namespace Eval

theorem exec_callBuiltin (name : String) (b : Builtin) (args : List Expr) (r : Run) :
    ((callBuiltin name b args).exec r).1 = b.call args ∧
      ((callBuiltin name b args).exec r).2.scope = r.scope := by
  unfold callBuiltin
  rw [Action.exec_bind_ok (Action.exec_record _ r), Action.exec_bind, Action.exec_ofExcept]
  cases b.call args with
  | error e => exact ⟨rfl, rfl⟩
  | ok v =>
    dsimp only
    rw [Action.exec_bind_ok (Action.exec_recordAll _ _)]
    exact ⟨rfl, rfl⟩

theorem exec_applied_discretePlot (ev : Expr → Action Expr) (args : List Expr) (r : Run) :
    ((applied (call ev) "discrete-plot" args).exec r).1 = Builtin.discretePlot.call args ∧
      ((applied (call ev) "discrete-plot" args).exec r).2.scope = r.scope :=
  exec_callBuiltin "discrete-plot" .discretePlot args r

/-- what follows the evaluation of bounds and options does not depend on what was logged -/
theorem targetPlot_sim (depth : Nat) (t : Target) (bounds options : Expr) :
    Sim (fun _ => False) Eq Eq
      (t.procedure >>= fun x => Action.sampling (sampleValue (call (eval depth)) x.1 x.2)
        (Plot.Continuous.plot bounds options))
      (t.procedure >>= fun x => Action.sampling (sampleValue (call (eval depth)) x.1 x.2)
        (Plot.Continuous.plot bounds options)) := by
  have hcall : Simulation.Invokes (fun _ => False) Eq Eq (call (eval depth)) (call (eval depth)) :=
    equal_simulation.call_sim (equal_simulation.eval_sim depth)
  have ht : Target.Rel Eq t t := by
    cases t with
    | named name => exact .named name
    | value v => exact .value rfl
  exact plain_sim_iff.mp ((equal_simulation.staging _).targetPlot_sim
    (Simulation.invokes_iff.mp hcall) ht
    (fun name _ => plain_sim_iff.mpr (equal_simulation.procedureNamed_sim name)) rfl rfl)

theorem exec_plotTarget_omitted (depth : Nat) (f bounds : Expr) (r : Run) :
    EndAlike
      ((plotTarget (eval depth) (call (eval depth)) f bounds (some (Expr.list []))).exec r)
      ((plotTarget (eval depth) (call (eval depth)) f bounds none).exec r) := by
  unfold plotTarget
  rw [Action.exec_bind, Action.exec_bind]
  rcases (target (eval depth) f).exec r with ⟨e | t, r₁⟩
  · exact ⟨rfl, rfl⟩
  · dsimp only
    rw [Action.exec_bind, Action.exec_bind]
    cases hbounds : (eval depth bounds).exec r₁ with
    | mk x r₂ =>
      cases x with
      | error e => exact ⟨rfl, rfl⟩
      | ok b =>
        -- from here on the two runs differ in what the empty list has logged
        dsimp only
        rw [Action.exec_bind_ok (exec_eval_empty hbounds), pure_bind]
        refine (targetPlot_sim depth t b (Expr.list []) _ r₂ ?_).endAlike
        exact ⟨rfl, rfl⟩

end Eval

/-- evaluations end alike if their nodes do -/
theorem endAlike_eval {depth : Nat} {e e' : Expr} {r : Run}
    (h : ∀ d, EndAlike ((Eval.node (eval d) (Eval.call (eval d)) e).exec r)
      ((Eval.node (eval d) (Eval.call (eval d)) e').exec r)) :
    EndAlike ((eval depth e).exec r) ((eval depth e').exec r) := by
  cases hr : r.raised with
  | true =>
    rw [exec_eval_raised _ _ hr, exec_eval_raised _ _ hr]
    exact ⟨rfl, rfl⟩
  | false =>
    cases depth with
    | zero =>
      rw [exec_eval_zero _ hr, exec_eval_zero _ hr]
      exact ⟨rfl, rfl⟩
    | succ depth =>
      rw [exec_eval_succ depth _ hr, exec_eval_succ depth _ hr]
      exact h depth

theorem eval_discretePlot_omitted (depth : Nat) (data : Expr) (r : Run) :
    EndAlike ((eval depth (Expr.call "discrete-plot" [data, Expr.list []])).exec r)
      ((eval depth (Expr.call "discrete-plot" [data])).exec r) := by
  refine endAlike_eval fun d => ?_
  have hf : Form.ofName? "discrete-plot" = none := rfl
  rw [Eval.node_call hf (List.cons_ne_nil _ _), Eval.node_call hf (List.cons_ne_nil _ _),
    List.mapM_cons, List.mapM_cons, List.mapM_cons, List.mapM_nil]
  simp only [bind_assoc, pure_bind]
  rw [Action.exec_bind, Action.exec_bind]
  cases hdata : (eval d data).exec r with
  | mk x r₁ =>
    cases x with
    | error e => exact ⟨rfl, rfl⟩
    | ok v =>
      dsimp only
      rw [Action.exec_bind_ok (exec_eval_empty hdata)]
      obtain ⟨hgiven, hscope⟩ := Eval.exec_applied_discretePlot (eval d) [v, Expr.list []]
        { r₁ with log := .callingBuiltin Expr.listName 0 :: r₁.log }
      obtain ⟨homitted, hscope'⟩ := Eval.exec_applied_discretePlot (eval d) [v] r₁
      have hplot : Builtin.discretePlot.call [v, Expr.list []] = Builtin.discretePlot.call [v] :=
        Plot.discretePlot_empty (Expr.listOf_list []) v
      exact ⟨(hgiven.trans hplot).trans homitted.symm, hscope.trans hscope'.symm⟩

theorem eval_continuousPlot_omitted (depth : Nat) (f bounds : Expr) (r : Run) :
    EndAlike ((eval depth (Expr.call "continuous-plot" [f, bounds, Expr.list []])).exec r)
      ((eval depth (Expr.call "continuous-plot" [f, bounds])).exec r) :=
  endAlike_eval fun d => Eval.exec_plotTarget_omitted d f bounds r

namespace Plot

variable {procedure : String} {options : Expr} {es : List Expr} {o : Options}

theorem continuousPlot_congr {options' : Expr}
    (h : Options.read Continuous.procedure options' = Options.read Continuous.procedure options)
    (bounds : Expr) : Continuous.plot bounds options' = Continuous.plot bounds options := by
  rw [Continuous.plot_eq, Continuous.plot_eq, h]

/-- Options that are accepted.  Their captions and their text scales may be interleaved in any other
way; every text of a plot is drawn at the first text scale, wherever that stands, or at 1 without
one; and options that are left out are an empty list of options, for plots of both kinds. -/
theorem plot_options (hlist : options.ListOf es)
    (hread : Options.read procedure options = .ok o) :
    (∀ options' es', Expr.ListOf options' es' → Reordered es es' →
      (∀ data, Discrete.plot [data, options'] = Discrete.plot [data, options]) ∧
      ∀ bounds, Continuous.plot bounds options' = Continuous.plot bounds options) ∧
    (∀ data e, Discrete.plot [data, options] = .ok e →
      Labelled (es.filterMap captionOf?) (firstScale es) e) ∧
    (∀ bounds f e, (Continuous.run bounds options f).outcome = .ok e →
      Labelled (es.filterMap captionOf?) (firstScale es) e) ∧
    (∀ empty, Expr.ListOf empty [] →
      (∀ data, Discrete.plot [data, empty] = Discrete.plot [data]) ∧
      ∀ bounds, Continuous.plot bounds empty = Continuous.plot bounds (Expr.list [])) ∧
    (∀ depth data r, EndAlike
      ((eval depth (Expr.call "discrete-plot" [data, Expr.list []])).exec r)
      ((eval depth (Expr.call "discrete-plot" [data])).exec r)) ∧
    ∀ depth f bounds r, EndAlike
      ((eval depth (Expr.call "continuous-plot" [f, bounds, Expr.list []])).exec r)
      ((eval depth (Expr.call "continuous-plot" [f, bounds])).exec r) := by
  -- whatever reads them, the same options are read
  have haccepted (name : String) : Options.read name options =
      .ok ⟨es.filterMap captionOf?, firstScale es⟩ :=
    (read_iff hlist).mpr ⟨((read_iff hlist).mp hread).1, rfl⟩
  refine ⟨fun options' es' hlist' h => ?_, fun data e he => ?_, fun bounds f e he => ?_,
    fun empty hempty => ⟨discretePlot_empty hempty, ?_⟩, eval_discretePlot_omitted,
    eval_continuousPlot_omitted⟩
  · have hsame (name : String) : Options.read name options' = Options.read name options := by
      rw [haccepted name]
      exact read_reordered h hlist hlist' (haccepted name)
    refine ⟨fun data => ?_, continuousPlot_congr (hsame _)⟩
    rw [discretePlot_eq, discretePlot_eq, hsame]
  · obtain ⟨o', ho, hplot⟩ := bind_eq_ok.mp he
    rw [haccepted] at ho
    cases ho
    obtain ⟨_, ps, b, -, -, -, rfl⟩ := Discrete.plotData_eq_ok.mp hplot
    exact labelled_discrete b ps _
  · obtain ⟨_, _, o', stage, b, -, ho, -, -, rfl, -⟩ := Continuous.plot_ok he
    rw [haccepted] at ho
    cases ho
    exact labelled_continuous b _ _
  · refine continuousPlot_congr ?_
    rw [read_empty hempty, read_empty (Expr.listOf_list [])]

/-- `(key value)` -/
def entry (key : String) (value : Expr) : Expr := Expr.list [Expr.string key, value]

theorem entryKey?_entry (key : String) (value : Expr) :
    entryKey? (entry key value) = some key := rfl

/-- a title before the text scale that counts, and another text scale behind it -/
def lateScale : List Expr :=
  [entry "title" (Expr.string "corner"), entry "text-scale" (Expr.number 0.5),
    entry "abscissa-label" (Expr.string "x"), entry "text-scale" (Expr.number 2)]

/-- the same entries, each caption behind a text scale -/
def earlyScale : List Expr :=
  [entry "text-scale" (Expr.number 0.5), entry "title" (Expr.string "corner"),
    entry "text-scale" (Expr.number 2), entry "abscissa-label" (Expr.string "x")]

theorem reordered_lateScale : Reordered lateScale earlyScale := by
  have hperm (a b c d : Expr) : [b, a, d, c].Perm [a, b, c, d] :=
    (List.Perm.swap a b [d, c]).trans (((List.Perm.swap c d []).cons b).cons a)
  refine ⟨hperm _ _ _ _, ?_, ?_⟩
  · simp [lateScale, earlyScale, isCaptionEntry, entryKey?_entry]
  · simp [lateScale, earlyScale, isScaleEntry, entryKey?_entry]

theorem plot_options_lateScale :
    (∀ data, Discrete.plot [data, Expr.list earlyScale] =
      Discrete.plot [data, Expr.list lateScale]) ∧
    ∃ e, Discrete.plot [Expr.list [Point.expr ⟨2, 1⟩], Expr.list lateScale] = .ok e ∧
      Labelled [⟨.title, "corner"⟩, ⟨.abscissa, "x"⟩] 0.5 e := by
  have hread : Options.read Discrete.procedure (Expr.list lateScale) =
      .ok ⟨[⟨.title, "corner"⟩, ⟨.abscissa, "x"⟩], 0.5⟩ := rfl
  have hpoint : Point.Shown (Point.expr ⟨2, 1⟩) ⟨2, 1⟩ :=
    Point.shown_expr ⟨by decide, by decide⟩
  obtain ⟨e, he⟩ : ∃ e, Discrete.plot [Expr.list [Point.expr ⟨2, 1⟩], Expr.list lateScale] =
      .ok e := by
    rw [discretePlot_eq, hread]
    exact ⟨_, Discrete.plotData_eq_ok.mpr
      ⟨_, _, _, Expr.listOf_list _, .cons hpoint .nil, rfl, rfl⟩⟩
  obtain ⟨hreordered, hdiscrete, -⟩ := plot_options (Expr.listOf_list _) hread
  exact ⟨(hreordered _ _ (Expr.listOf_list _) reordered_lateScale).1, e, he, hdiscrete _ e he⟩

end Plot

end ChartLisp
