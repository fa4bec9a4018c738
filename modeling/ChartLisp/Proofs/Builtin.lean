import ChartLisp.Builtin.Call
import ChartLisp.Plot.Continuous
import ChartLisp.Proofs.Simulation.Action

/-!
# Built-in procedures keep relations on values

Built-in procedures see values through few views and build them in few ways.  A relation on values
that these views and constructions respect is kept by every built-in procedure and by every plot.

* `Congruence V`               what such a relation `V` must satisfy
* `Congruence.call`            built-in procedures, applied to related values, fail alike or yield
                               related values
* `Congruence.continuousPlot`  plots of functions ask the same questions and end in related values

A property of values is the relation that is equality of values with the property.
-/

namespace ChartLisp

/-- the views of values that built-in procedures have, and the ways they build values -/
structure Congruence (V : Expr → Expr → Prop) : Prop where
  atom (a : Atom) : a.symbol? = none → V (Expr.leaf a) (Expr.leaf a)
  list {vs vs' : List Expr} : List.Forall₂ V vs vs' → V (Expr.list vs) (Expr.list vs')
  setProperty {t t' v v' : Expr} (key : String) :
    V t t' → V v v' → V (t.setProperty key v) (t'.setProperty key v')
  elements {v v' : Expr} : V v v' → Option.Rel (List.Forall₂ V) v.elements? v'.elements?
  number {v v' : Expr} : V v v' → v.number? = v'.number?
  complex {v v' : Expr} : V v v' → v.complex? = v'.complex?
  string {v v' : Expr} : V v v' → v.string? = v'.string?
  render {v v' : Expr} : V v v' → v.render = v'.render

namespace SameOutcome

variable {α β γ δ : Type} {V : α → β → Prop} {W : γ → δ → Prop}

theorem bind {x : Except EvalError α} {y : Except EvalError β} {k : α → Except EvalError γ}
    {l : β → Except EvalError δ} (h : SameOutcome V x y)
    (hk : ∀ a b, V a b → SameOutcome W (k a) (l b)) : SameOutcome W (x >>= k) (y >>= l) := by
  cases h with
  | ok hv => exact hk _ _ hv
  | error e => exact .error e

/-- the same computation goes first -/
theorem bind_eq {x y : Except EvalError α} {k : α → Except EvalError γ}
    {l : α → Except EvalError δ} (h : x = y) (hk : ∀ a, SameOutcome W (k a) (l a)) :
    SameOutcome W (x >>= k) (y >>= l) := by
  subst h
  cases x with
  | ok a => exact hk a
  | error e => exact .error e

/-- the results are plain data -/
theorem eq {x y : Except EvalError α} (h : SameOutcome Eq x y) : x = y := by
  cases h with
  | ok hv => rw [hv]
  | error e => rfl

end SameOutcome

/-- element by element the same computation -/
theorem mapM_congr_of_forall₂ {α β γ : Type} {V : α → β → Prop} {f : α → Except EvalError γ}
    {g : β → Except EvalError γ} {xs : List α} {ys : List β} (h : List.Forall₂ V xs ys)
    (hf : ∀ x y, V x y → f x = g y) : xs.mapM f = ys.mapM g := by
  induction h with
  | nil => rw [List.mapM_nil, List.mapM_nil]
  | cons hxy _ ih => rw [List.mapM_cons, List.mapM_cons, hf _ _ hxy, ih]

namespace Argument

variable {V : Expr → Expr → Prop} {args args' : List Expr}

theorem requireCount_congr (procedure : String) (count : Nat) (h : List.Forall₂ V args args') :
    requireCount procedure count args = requireCount procedure count args' := by
  unfold requireCount
  rw [h.length_eq]

theorem nth_congr (i : Nat) (h : List.Forall₂ V args args') :
    SameOutcome V (nth args i) (nth args' i) := by
  have hget := List.forall₂_iff_get.mp h
  unfold nth
  rw [hget.1]
  by_cases hi : i < args'.length
  · rw [List.getElem?_eq_getElem (hget.1 ▸ hi), List.getElem?_eq_getElem hi]
    exact .ok (hget.2 i (hget.1 ▸ hi) hi)
  · rw [List.getElem?_eq_none (hget.1 ▸ Nat.le_of_not_lt hi),
      List.getElem?_eq_none (Nat.le_of_not_lt hi)]
    exact .error _

end Argument

namespace Congruence

variable {V : Expr → Expr → Prop} (cong : Congruence V) {e e' : Expr} {args args' : List Expr}
include cong

/-! ## Arguments -/

theorem numberLeaf (x : Double) : V (Expr.number x) (Expr.number x) := cong.atom (.number x) rfl

theorem complexLeaf (z : Complex) : V (Expr.complex z) (Expr.complex z) :=
  cong.atom (.complex z) rfl

theorem stringLeaf (t : String) : V (Expr.string t) (Expr.string t) := cong.atom (.string t) rfl

theorem readNumber (procedure : String) (h : V e e') :
    Argument.number procedure e = Argument.number procedure e' := by
  unfold Argument.number
  rw [cong.number h, cong.render h]

theorem readComplex (procedure : String) (h : V e e') :
    Argument.complex procedure e = Argument.complex procedure e' := by
  unfold Argument.complex
  rw [cong.complex h, cong.render h]

theorem readElements (procedure : String) (h : V e e') :
    SameOutcome (List.Forall₂ V) (Argument.elements procedure e)
      (Argument.elements procedure e') := by
  have hes := cong.elements h
  unfold Argument.elements
  rw [cong.render h]
  generalize e.elements? = x at hes ⊢
  generalize e'.elements? = y at hes ⊢
  cases hes with
  | some hes => exact .ok hes
  | none => exact .error _

theorem readScalar (procedure : String) (h : V e e') :
    Scalar.read procedure e = Scalar.read procedure e' := by
  unfold Scalar.read
  rw [cong.number h, cong.complex h, cong.render h]

/-! ## Arithmetic -/

theorem scalar (a : Scalar) : V a.toExpr a.toExpr := by
  cases a with
  | real x => exact cong.numberLeaf x
  | complex z => exact cong.complexLeaf z

theorem fold (procedure : String) (init : Double) (f : Double → Double → Double)
    (g : Complex → Complex → Complex) (h : List.Forall₂ V args args') :
    SameOutcome V (Arithmetic.fold procedure init f g args)
      (Arithmetic.fold procedure init f g args') := by
  have hfold : ∀ acc : Scalar,
      args.foldlM (Arithmetic.step procedure f g) acc =
        args'.foldlM (Arithmetic.step procedure f g) acc := by
    induction h with
    | nil => exact fun _ => rfl
    | cons he _ ih =>
      intro acc
      simp only [List.foldlM_cons, Arithmetic.step, cong.readScalar procedure he, ih]
  exact SameOutcome.bind_eq (hfold (.real init)) fun a => .ok (cong.scalar a)

theorem binary (procedure : String) (f : Double → Double → Double)
    (g : Complex → Complex → Complex) {a a' b b' : Expr} (ha : V a a') (hb : V b b') :
    SameOutcome V (Arithmetic.binary procedure f g a b)
      (Arithmetic.binary procedure f g a' b') := by
  refine SameOutcome.bind_eq (cong.readScalar procedure ha) fun _ => ?_
  exact SameOutcome.bind_eq (cong.readScalar procedure hb) fun _ => .ok (cong.scalar _)

theorem difference (h : List.Forall₂ V args args') :
    SameOutcome V (Arithmetic.difference args) (Arithmetic.difference args') := by
  rcases h with _ | ⟨ha, _ | ⟨hb, _ | ⟨_, _⟩⟩⟩
  · exact .error _
  · exact cong.binary _ _ _ (cong.numberLeaf 0) ha
  · exact cong.binary _ _ _ ha hb
  · exact .error _

theorem quotient (h : List.Forall₂ V args args') :
    SameOutcome V (Arithmetic.quotient args) (Arithmetic.quotient args') := by
  rcases h with _ | ⟨ha, _ | ⟨hb, _ | ⟨_, _⟩⟩⟩
  · exact .error _
  · exact cong.binary _ _ _ (cong.numberLeaf 1) ha
  · exact cong.binary _ _ _ ha hb
  · exact .error _

theorem power (h : List.Forall₂ V args args') :
    SameOutcome V (Arithmetic.power args) (Arithmetic.power args') := by
  rcases h with _ | ⟨ha, _ | ⟨hb, _ | ⟨_, _⟩⟩⟩
  · exact .error _
  · exact .error _
  · exact cong.binary _ _ _ ha hb
  · exact .error _

theorem root (h : List.Forall₂ V args args') :
    SameOutcome V (Arithmetic.root args) (Arithmetic.root args') := by
  rcases h with _ | ⟨ha, _ | ⟨_, _⟩⟩
  · exact .error _
  · exact SameOutcome.bind_eq (cong.readScalar _ ha) fun _ => .ok (cong.scalar _)
  · exact .error _

/-! ## Functions of one number -/

theorem ofNumber (procedure : String) (f : Double → Double) (h : List.Forall₂ V args args') :
    SameOutcome V (Analysis.ofNumber procedure f args) (Analysis.ofNumber procedure f args') := by
  refine SameOutcome.bind_eq (Argument.requireCount_congr _ 1 h) fun _ => ?_
  refine (Argument.nth_congr 0 h).bind fun _ _ ha => ?_
  exact SameOutcome.bind_eq (cong.readNumber _ ha) fun x => .ok (cong.numberLeaf (f x))

theorem logarithm (h : List.Forall₂ V args args') :
    SameOutcome V (Analysis.logarithm args) (Analysis.logarithm args') := by
  refine SameOutcome.bind_eq (Argument.requireCount_congr _ 1 h) fun _ => ?_
  refine (Argument.nth_congr 0 h).bind fun _ _ ha => ?_
  refine SameOutcome.bind_eq (cong.readNumber _ ha) fun x => ?_
  split
  · exact .error _
  · exact .ok (cong.numberLeaf x.log)

theorem ofComplex (procedure : String) {f : Complex → Expr} (hf : ∀ z, V (f z) (f z))
    (h : List.Forall₂ V args args') :
    SameOutcome V (Analysis.ofComplex procedure f args) (Analysis.ofComplex procedure f args') := by
  refine SameOutcome.bind_eq (Argument.requireCount_congr _ 1 h) fun _ => ?_
  refine (Argument.nth_congr 0 h).bind fun _ _ ha => ?_
  exact SameOutcome.bind_eq (cong.readComplex _ ha) fun z => .ok (hf z)

/-! ## Lists -/

theorem uncons (procedure : String) (h : V e e') :
    SameOutcome (fun x y => V x.1 y.1 ∧ List.Forall₂ V x.2 y.2) (Lists.uncons procedure e)
      (Lists.uncons procedure e') := by
  refine (cong.readElements procedure h).bind fun es es' hes => ?_
  cases hes with
  | nil => exact .error _
  | cons hx hxs => exact .ok ⟨hx, hxs⟩

theorem first (h : List.Forall₂ V args args') :
    SameOutcome V (Lists.first args) (Lists.first args') := by
  refine SameOutcome.bind_eq (Argument.requireCount_congr _ 1 h) fun _ => ?_
  refine (Argument.nth_congr 0 h).bind fun _ _ ha => ?_
  exact (cong.uncons _ ha).bind fun _ _ hx => .ok hx.1

theorem rest (h : List.Forall₂ V args args') :
    SameOutcome V (Lists.rest args) (Lists.rest args') := by
  refine SameOutcome.bind_eq (Argument.requireCount_congr _ 1 h) fun _ => ?_
  refine (Argument.nth_congr 0 h).bind fun _ _ ha => ?_
  exact (cong.uncons _ ha).bind fun _ _ hx => .ok (cong.list hx.2)

theorem length (h : List.Forall₂ V args args') :
    SameOutcome V (Lists.length args) (Lists.length args') := by
  refine SameOutcome.bind_eq (Argument.requireCount_congr _ 1 h) fun _ => ?_
  refine (Argument.nth_congr 0 h).bind fun _ _ ha => ?_
  refine (cong.readElements _ ha).bind fun es es' hes => ?_
  have hcount : Lists.ofCount "length" es.length = Lists.ofCount "length" es'.length := by
    rw [hes.length_eq]
  exact SameOutcome.bind_eq hcount fun n => .ok (cong.numberLeaf n)

theorem append (h : List.Forall₂ V args args') :
    SameOutcome V (Lists.append args) (Lists.append args') := by
  refine SameOutcome.bind_eq (Argument.requireCount_congr _ 2 h) fun _ => ?_
  refine (Argument.nth_congr 0 h).bind fun _ _ ha => ?_
  refine (cong.readElements _ ha).bind fun es es' hes => ?_
  refine (Argument.nth_congr 1 h).bind fun _ _ hb => .ok (cong.list ?_)
  exact List.rel_append hes (.cons hb .nil)

theorem join (h : List.Forall₂ V args args') :
    SameOutcome V (Lists.join args) (Lists.join args') := by
  refine SameOutcome.bind_eq (Argument.requireCount_congr _ 2 h) fun _ => ?_
  refine (Argument.nth_congr 0 h).bind fun _ _ ha => ?_
  refine (cong.readElements _ ha).bind fun xs xs' hxs => ?_
  refine (Argument.nth_congr 1 h).bind fun _ _ hb => ?_
  exact (cong.readElements _ hb).bind fun ys ys' hys => .ok (cong.list (List.rel_append hxs hys))

/-- a list that is built from nothing but related elements -/
theorem sameList {es : List Expr} (h : ∀ e ∈ es, V e e) : V (Expr.list es) (Expr.list es) :=
  cong.list (List.forall₂_same.mpr h)

theorem numbers (xs : List Double) :
    V (Expr.list (xs.map Expr.number)) (Expr.list (xs.map Expr.number)) := by
  refine cong.sameList fun e he => ?_
  obtain ⟨x, _, rfl⟩ := List.mem_map.mp he
  exact cong.numberLeaf x

theorem range (h : List.Forall₂ V args args') :
    SameOutcome V (Lists.range args) (Lists.range args') := by
  refine SameOutcome.bind_eq (Argument.requireCount_congr _ 3 h) fun _ => ?_
  refine (Argument.nth_congr 0 h).bind fun _ _ ha => ?_
  refine SameOutcome.bind_eq (cong.readNumber _ ha) fun start => ?_
  refine (Argument.nth_congr 1 h).bind fun _ _ hb => ?_
  refine SameOutcome.bind_eq (cong.readNumber _ hb) fun stop => ?_
  refine (Argument.nth_congr 2 h).bind fun _ _ hc => ?_
  refine SameOutcome.bind_eq (cong.readNumber _ hc) fun step => ?_
  cases Lists.values start stop step with
  | ok xs => exact .ok (cong.numbers xs)
  | error fault => exact .error _

/-! ## What plots are made of -/

theorem point (x y size : Double) : V (Plot.point x y size) (Plot.point x y size) :=
  cong.setProperty _ (cong.setProperty _ (cong.numbers [x, y]) (cong.stringLeaf _))
    (cong.numberLeaf size)

theorem line {p q : Expr} (hp : V p p) (hq : V q q) : V (Plot.line p q) (Plot.line p q) :=
  cong.setProperty _ (cong.setProperty _ (cong.list (.cons hp (.cons hq .nil))) (cong.stringLeaf _))
    (cong.numberLeaf 0)

theorem label (text : String) {position : Expr} (h : V position position)
    (scale rotation : Double) :
    V (Plot.label text position scale rotation) (Plot.label text position scale rotation) := by
  have htext := cong.setProperty Plot.kindKey (cong.stringLeaf text) (cong.stringLeaf "text")
  exact cong.setProperty _ (cong.setProperty _ (cong.setProperty _ htext h) (cong.numberLeaf scale))
    (cong.numberLeaf rotation)

/-- a hairline between two places -/
theorem rule (x y x' y' : Double) :
    V (Plot.line (Plot.place x y) (Plot.place x' y'))
      (Plot.line (Plot.place x y) (Plot.place x' y')) :=
  cong.line (cong.point x y 0) (cong.point x' y' 0)

theorem axes (b : Plot.Extent) : ∀ e ∈ b.axes, V e e := by
  intro e he
  rcases List.mem_append.mp he with he | he
  · split at he
    · rw [List.mem_singleton.mp he]
      exact cong.rule _ _ _ _
    · exact absurd he List.not_mem_nil
  · split at he
    · rw [List.mem_singleton.mp he]
      exact cong.rule _ _ _ _
    · exact absurd he List.not_mem_nil

theorem borders (b : Plot.Extent) : ∀ e ∈ b.borders, V e e := by
  intro e he
  rcases List.mem_append.mp he with he | he
  · simp only [List.mem_cons, List.not_mem_nil, or_false] at he
    rcases he with rfl | rfl | rfl | rfl <;> exact cong.rule _ _ _ _
  · exact cong.axes b e he

theorem cornerLabels (b : Plot.Extent) (scale : Double) : ∀ e ∈ b.cornerLabels scale, V e e := by
  intro e he
  have corner : ∀ value x y,
      V (Plot.Extent.cornerLabel scale value x y) (Plot.Extent.cornerLabel scale value x y) :=
    fun value x y => cong.label _ (cong.point x y 0) scale 0
  simp only [Plot.Extent.cornerLabels, List.mem_cons, List.not_mem_nil, or_false] at he
  rcases he with rfl | rfl | rfl | rfl <;> exact corner _ _ _

theorem captions (o : Plot.Options) (b : Plot.Extent) : ∀ e ∈ o.captions b, V e e := by
  intro e he
  obtain ⟨c, _, rfl⟩ := List.mem_map.mp he
  unfold Plot.Options.captionAt
  cases c.side with
  | title => exact cong.label _ (cong.point _ _ 0) _ _
  | abscissa => exact cong.label _ (cong.point _ _ 0) _ _
  | ordinate => exact cong.label _ (cong.point _ _ 0) _ _

/-! ## Plot options and data points -/

theorem setting (procedure : String) (h : V e e') :
    Plot.Setting.read procedure e = Plot.Setting.read procedure e' := by
  unfold Plot.Setting.read
  rw [cong.render h]
  refine ((cong.readElements procedure h).bind fun es es' hes => ?_).eq
  rcases hes with _ | ⟨hk, _ | ⟨hv, _ | ⟨_, _⟩⟩⟩
  · exact .error _
  · exact .error _
  · simp only [Plot.Setting.ofKey, cong.string hk, cong.render hk, cong.readNumber procedure hv,
      cong.string hv]
    exact SameOutcome.refl _
  · exact .error _

theorem options (procedure : String) (h : V e e') :
    Plot.Options.read procedure e = Plot.Options.read procedure e' := by
  refine ((cong.readElements procedure h).bind fun es es' hes => ?_).eq
  rw [mapM_congr_of_forall₂ hes fun _ _ hs => cong.setting procedure hs]
  exact SameOutcome.refl _

theorem dataPoint (procedure : String) (h : V e e') :
    Plot.readPoint procedure e = Plot.readPoint procedure e' := by
  unfold Plot.readPoint
  rw [cong.render h]
  refine ((cong.readElements procedure h).bind fun es es' hes => ?_).eq
  rcases hes with _ | ⟨hx, _ | ⟨hy, _ | ⟨_, _⟩⟩⟩
  · exact .error _
  · exact .error _
  · simp only [cong.readNumber procedure hx, cong.readNumber procedure hy]
    exact SameOutcome.refl _
  · exact .error _

/-! ## Plots of data points -/

theorem stems (b : Plot.Extent) (ps : List Plot.Point) : ∀ e ∈ Plot.Discrete.stems b ps, V e e := by
  intro e he
  obtain ⟨p, _, he⟩ := List.mem_flatMap.mp he
  rcases List.mem_pair.mp he with rfl | rfl
  · exact cong.point _ _ _
  · exact cong.rule _ _ _ _

theorem plotData (o : Plot.Options) (h : V e e') :
    SameOutcome V (Plot.Discrete.plotData e o) (Plot.Discrete.plotData e' o) := by
  refine (cong.readElements _ h).bind fun es es' hes => ?_
  have hpoints := mapM_congr_of_forall₂ hes fun _ _ hp => cong.dataPoint Plot.Discrete.procedure hp
  refine SameOutcome.bind_eq hpoints fun ps => ?_
  cases Plot.Extent.ofPoints? ps with
  | none => exact .error _
  | some b =>
    refine .ok (cong.sameList fun e he => ?_)
    simp only [Plot.Discrete.scene, List.mem_append] at he
    rcases he with ((he | he) | he) | he
    · exact cong.stems b ps e he
    · exact cong.borders b e he
    · exact cong.captions o b e he
    · exact cong.cornerLabels b o.textScale e he

theorem discretePlot (h : List.Forall₂ V args args') :
    SameOutcome V (Plot.Discrete.plot args) (Plot.Discrete.plot args') := by
  rcases h with _ | ⟨hd, _ | ⟨ho, _ | ⟨_, _⟩⟩⟩
  · exact .error _
  · exact cong.plotData _ hd
  · exact SameOutcome.bind_eq (cong.options _ ho) fun o => cong.plotData o hd
  · exact .error _

/-! ## Plots of functions -/

theorem bounds (h : V e e') : Plot.Continuous.readBounds e = Plot.Continuous.readBounds e' := by
  unfold Plot.Continuous.readBounds
  rw [cong.render h]
  refine ((cong.readElements _ h).bind fun es es' hes => ?_).eq
  rcases hes with _ | ⟨hl, _ | ⟨hu, _ | ⟨_, _⟩⟩⟩
  · exact .error _
  · exact .error _
  · simp only [cong.readNumber _ hl, cong.readNumber _ hu]
    exact SameOutcome.refl _
  · exact .error _

theorem segments {es : List Expr} (h : ∀ e ∈ es, V e e) :
    ∀ e ∈ Plot.Continuous.segments es, V e e := by
  induction es with
  | nil => exact List.forall_mem_nil _
  | cons a es ih =>
    cases es with
    | nil => exact List.forall_mem_nil _
    | cons b rest =>
      intro e he
      rcases List.mem_cons.mp he with rfl | he
      · exact cong.line (h a (by simp)) (h b (by simp))
      · exact ih (fun x hx => h x (List.mem_cons_of_mem _ hx)) e he

theorem scene (b : Plot.Extent) (ps : List Plot.Point) (o : Plot.Options) :
    ∀ e ∈ Plot.Continuous.scene b ps o, V e e := by
  intro e he
  simp only [Plot.Continuous.scene, List.mem_append] at he
  rcases he with ((he | he) | he) | he
  · refine cong.segments (fun x hx => ?_) e he
    obtain ⟨p, _, rfl⟩ := List.mem_map.mp hx
    exact cong.point _ _ 0
  · exact cong.captions o b e he
  · exact cong.borders b e he
  · exact cong.cornerLabels b o.textScale e he

/-- bounds and options are read once, and after that only the values of the function count -/
theorem continuousPlot {b b' o o' : Expr} (hb : V b b') (ho : V o o') :
    Plot.Sampling.Rel V (Plot.Continuous.plot b o) (Plot.Continuous.plot b' o') := by
  unfold Plot.Continuous.plot
  rw [cong.bounds hb, cong.options _ ho]
  refine Plot.Sampling.Rel.bind fun ends => ?_
  refine Plot.Sampling.Rel.bind fun o => ?_
  refine Plot.Sampling.Rel.bind fun ps => ?_
  refine Plot.Sampling.Rel.bind fun _ => ?_
  refine Plot.Sampling.Rel.bind fun ps => ?_
  cases Plot.Extent.ofPoints? ps with
  | none => exact .fail _
  | some b => exact .done (cong.sameList (cong.scene b ps o))

/-! ## All built-in procedures -/

theorem run (b : Builtin) (h : List.Forall₂ V args args') :
    SameOutcome V (b.run args) (b.run args') := by
  cases b with
  | add => exact cong.fold _ _ _ _ h
  | multiply => exact cong.fold _ _ _ _ h
  | subtract => exact cong.difference h
  | divide => exact cong.quotient h
  | power => exact cong.power h
  | sqrt => exact cong.root h
  | ln => exact cong.logarithm h
  | sin => exact cong.ofNumber _ _ h
  | cos => exact cong.ofNumber _ _ h
  | tan => exact cong.ofNumber _ _ h
  | real => exact cong.ofComplex _ (fun z => cong.numberLeaf z.re) h
  | imag => exact cong.ofComplex _ (fun z => cong.numberLeaf z.im) h
  | mag => exact cong.ofComplex _ (fun z => cong.numberLeaf z.abs) h
  | arg => exact cong.ofComplex _ (fun z => cong.numberLeaf z.arg) h
  | conj => exact cong.ofComplex _ (fun z => cong.complexLeaf z.conj) h
  | list => exact .ok (cong.list h)
  | first => exact cong.first h
  | rest => exact cong.rest h
  | length => exact cong.length h
  | append => exact cong.append h
  | join => exact cong.join h
  | range => exact cong.range h
  | discretePlot => exact cong.discretePlot h

theorem call (b : Builtin) (h : List.Forall₂ V args args') :
    SameOutcome V (b.call args) (b.call args') := by
  unfold Builtin.call
  rw [h.length_eq]
  split
  · exact cong.run b h
  · exact .error _

end Congruence

end ChartLisp
