import ChartLisp.Proofs.Elementwise
import ChartLisp.Proofs.Plot.Refinement
import Mathlib.Algebra.Ring.Nat

/-!
# Plots of functions

The points of a plot after each of its passes, and what the plot draws from the last of them.

* `Refined`               one pass: its slots are filled with points of the graph
* `Continuous.polyline`   the samplings that a plot begins with, up to a number of passes
* `polyline_succ_ok`      one more pass, in a run that succeeds
* `polyline_counts`       how many points and questions there are after some passes
* `polyline_ends`         the first and the last point are those of the first samples
* `plot_ok`               the stages of a plot that succeeds, and the scene it draws
-/

namespace ChartLisp.Plot

open Sampling (Result)

variable {f : List Double → Double → Except EvalError Double} {earlier : List Double}
  {ps qs : List Point}

/-- where a data point is drawn -/
def Extent.placed (b : Extent) (p : Point) : Expr := place (b.mapX p.x) (b.mapY p.y)

/-! ## One pass -/

theorem finitePoint_ok {procedure : String} {x y : Double} {p : Point}
    (h : finitePoint procedure x y = .ok p) :
    p = ⟨x, y⟩ ∧ x.isFinite = true ∧ y.isFinite = true := by
  unfold finitePoint at h
  split at h
  · rename_i hfinite
    cases h
    exact ⟨rfl, (Bool.and_eq_true _ _).mp hfinite⟩
  · cases h

theorem finitePoint_of_finite {procedure : String} {x y : Double} (hx : x.isFinite = true)
    (hy : y.isFinite = true) : finitePoint procedure x y = .ok ⟨x, y⟩ := by
  unfold finitePoint
  rw [hx, hy]
  rfl

/-- a sample is a finite point of the graph -/
theorem sample_result {x : Double} {p : Point} (h : Result f (Continuous.sample x) p) :
    p.x = x ∧ x.isFinite = true ∧ p.y.isFinite = true ∧ ∃ earlier, f earlier x = .ok p.y := by
  obtain ⟨earlier, h⟩ := h
  obtain ⟨y, hy, hp, -⟩ := Sampling.bind_ok h
  have hf : f earlier x = .ok y := by
    simp only [Sampling.value, Sampling.answerAfter] at hy
    cases hfx : f earlier x with
    | error e =>
      rw [hfx] at hy
      cases hy
    | ok z =>
      rw [hfx] at hy
      exact hy
  cases hpoint : finitePoint Continuous.procedure x y with
  | error e =>
    rw [hpoint] at hp
    cases hp
  | ok q =>
    rw [hpoint] at hp
    cases hp
    obtain ⟨rfl, hx, hfinite⟩ := finitePoint_ok hpoint
    exact ⟨rfl, hx, hfinite, earlier, hf⟩

/-- `qs` are the points of a pass over `ps` -/
def Refined (f : List Double → Double → Except EvalError Double) (ps qs : List Point) : Prop :=
  List.Forall₂ (Slot.Holds f Continuous.sample id) (slots isBent ps) qs

theorem refine_ok
    (h : ((refine isBent Continuous.sample ps).answerAfter f earlier).outcome = .ok qs) :
    Refined f ps qs := by
  rw [refine_eq_slots] at h
  exact (Sampling.mapM_ok h).imp fun _ _ => Slot.Holds.of_result

theorem Slot.head?_of_holds {slots : List (Slot Point)} {p : Option Point}
    (h : List.Forall₂ (Slot.Holds f Continuous.sample id) slots qs)
    (hhead : slots.head? = p.map .kept) : qs.head? = p := by
  cases h with
  | nil =>
    cases p with
    | none => rfl
    | some p => cases hhead
  | cons hq _ =>
    cases p with
    | none => cases hhead
    | some p =>
      cases hhead
      cases hq
      rfl

theorem slots_head? (bent : Point → Point → Point → Bool) (ps : List Point) :
    (slots bent ps).head? = ps.head?.map .kept := by
  unfold slots
  split
  · unfold Slot.block
    split <;> rfl
  · exact List.head?_map

theorem slots_getLast? (bent : Point → Point → Point → Bool) (ps : List Point) :
    (slots bent ps).getLast? = ps.getLast?.map .kept := by
  fun_induction slots bent ps with
  | case1 a b c rest ih =>
    rw [List.getLast?_append, ih, List.getLast?_cons_cons, List.getLast?_cons_cons,
      List.getLast?_cons]
    rfl
  | case2 ps _ => exact List.getLast?_map

theorem length_questions (bent : Point → Point → Point → Bool) (ps : List Point) :
    ((slots bent ps).flatMap Slot.questions).length = 2 * bentCount bent ps := by
  have hmap (slot : Slot (Fin ps.length)) : (slot.map ps.get).questions = slot.questions := by
    cases slot <;> rfl
  have hblocks (js : List (Fin (tripleCount ps.length))) :
      ((js.flatMap (blockAt bent ps)).flatMap Slot.questions).length =
        2 * js.countP (bentAt bent ps) := by
    induction js with
    | nil => rfl
    | cons j js ih =>
      rw [List.flatMap_cons, List.flatMap_append, List.length_append, ih, List.countP_cons, blockAt,
        Slot.block]
      cases bentAt bent ps j <;> simp [Slot.questions]
      omega
  have hkept (is : List (Fin ps.length)) : (is.map Slot.kept).flatMap Slot.questions = [] := by
    rw [List.flatMap_map]
    exact List.flatMap_eq_nil_iff.mpr fun _ _ => rfl
  rw [← map_get_layout, List.flatMap_map]
  simp only [hmap]
  rw [layout, List.flatMap_append, hkept, List.append_nil, hblocks, bentCount]

namespace Refined

theorem length (h : Refined f ps qs) :
    qs.length + tripleCount ps.length = ps.length + 3 * bentCount isBent ps := by
  rw [← h.length_eq, ← map_get_layout, List.length_map, length_layout]

theorem head? (h : Refined f ps qs) : qs.head? = ps.head? :=
  Slot.head?_of_holds h (slots_head? isBent ps)

theorem getLast? (h : Refined f ps qs) : qs.getLast? = ps.getLast? := by
  have hlast := slots_getLast? isBent ps
  rw [← List.head?_reverse] at hlast ⊢
  exact Slot.head?_of_holds (List.forall₂_reverse_iff.mpr h) hlast

end Refined

/-! ## The passes of a plot -/

namespace Continuous

/-- where the first samples are taken -/
def grid (lower upper : Double) : List Double :=
  (List.range (intervalCount + 1)).map fun i =>
    lower + Double.ofNat i * ((upper - lower) / Double.ofNat intervalCount)

/-- the samples of a plot up to the given number of passes -/
def polyline (lower upper : Double) (passes : Nat) : Sampling (List Point) := do
  let ps ← firstSamples lower upper
  Sampling.record (.sampled ps.length lower upper)
  refineAll (List.range' 1 passes) ps

variable {lower upper : Double} {n : Nat}

theorem firstSamples_eq (lower upper : Double) :
    firstSamples lower upper = (grid lower upper).mapM sample := by
  rw [grid, List.mapM_map]
  rfl

theorem length_grid (lower upper : Double) : (grid lower upper).length = 51 := by
  rw [grid, List.length_map, List.length_range]
  rfl

theorem refineAll_append (as bs : List Nat) (ps : List Point) :
    refineAll (as ++ bs) ps = refineAll as ps >>= refineAll bs := by
  induction as generalizing ps with
  | nil => rfl
  | cons a as ih =>
    rw [List.cons_append, refineAll, refineAll]
    simp only [ih, bind_assoc]

theorem polyline_succ (lower upper : Double) (n : Nat) :
    polyline lower upper (n + 1) = do
      let ps ← polyline lower upper n
      let qs ← refine isBent sample ps
      Sampling.record (.refined (1 + n) qs.length)
      return qs := by
  unfold polyline
  simp only [List.range'_1_concat, refineAll_append, bind_assoc]
  rfl

/-- the plot of a polyline that is settled -/
def draw (o : Options) (ps : List Point) : Sampling Expr :=
  match Extent.ofPoints? ps with
  | none => .fail (.unusable procedure .noData)
  | some b => return Expr.list (scene b ps o)

theorem plot_eq (bounds options : Expr) :
    plot bounds options =
      (Sampling.ofExcept (readBounds bounds) >>= fun b =>
        Sampling.ofExcept (Options.read procedure options) >>= fun o =>
          polyline b.1 b.2 passCount >>= draw o) := by
  unfold plot polyline
  simp only [bind_assoc]
  rfl

/-! ### Questions -/

theorem ensures_sample (x : Double) : (sample x).Ensures fun xs _ => xs = [x] ∧ True := by
  intro y
  cases hp : finitePoint procedure x y with
  | error e => exact congrArg Sampling.ofExcept hp
  | ok p =>
    show (Sampling.ofExcept (finitePoint procedure x y)).Ensures _
    rw [hp]
    exact ⟨rfl, trivial⟩

theorem ensures_firstSamples (lower upper : Double) :
    (firstSamples lower upper).Ensures fun xs ps => xs = grid lower upper ∧ ps.length = 51 := by
  rw [firstSamples_eq]
  refine (Sampling.Ensures.mapM ensures_sample (grid lower upper)).mono fun xs ps h => ?_
  exact ⟨h.1.trans (List.flatMap_singleton' _), h.2.length_eq.symm.trans (length_grid lower upper)⟩

theorem ensures_refine (ps : List Point) :
    (refine isBent sample ps).Ensures fun xs qs =>
      xs = (slots isBent ps).flatMap Slot.questions ∧ qs.length = (slots isBent ps).length := by
  have hfill (slot : Slot Point) :
      (slot.fill sample id).Ensures fun xs _ => xs = slot.questions ∧ True := by
    cases slot with
    | kept p => exact ⟨rfl, trivial⟩
    | sampled x => exact ensures_sample x
  rw [refine_eq_slots]
  refine (Sampling.Ensures.mapM hfill (slots isBent ps)).mono fun xs qs h => ?_
  exact ⟨h.1, h.2.length_eq.symm⟩

/-! ### Runs that succeed -/

theorem polyline_zero_ok
    (h : ((polyline lower upper 0).answerAfter f earlier).outcome = .ok ps) :
    List.Forall₂ (fun x p => Result f (sample x) p) (grid lower upper) ps ∧
      ((polyline lower upper 0).answerAfter f earlier).asked = grid lower upper := by
  obtain ⟨qs, hqs, hrest, hasked⟩ := Sampling.bind_ok h
  cases hrest
  refine ⟨?_, ?_⟩
  · rw [firstSamples_eq] at hqs
    exact Sampling.mapM_ok hqs
  · have hgrid := ((ensures_firstSamples lower upper).result hqs).1
    rw [hgrid] at hasked
    exact hasked.trans (List.append_nil _)

theorem polyline_succ_ok
    (h : ((polyline lower upper (n + 1)).answerAfter f earlier).outcome = .ok qs) :
    ∃ ps, ((polyline lower upper n).answerAfter f earlier).outcome = .ok ps ∧ Refined f ps qs ∧
      ((polyline lower upper (n + 1)).answerAfter f earlier).asked.length =
        ((polyline lower upper n).answerAfter f earlier).asked.length +
          2 * bentCount isBent ps := by
  rw [polyline_succ] at h ⊢
  obtain ⟨ps, hps, hpass, hasked⟩ := Sampling.bind_ok h
  obtain ⟨qs', hqs, hrest, hasked'⟩ := Sampling.bind_ok hpass
  cases hrest
  have hquestions := ((ensures_refine ps).result hqs).1
  refine ⟨ps, hps, refine_ok hqs, ?_⟩
  rw [hasked, hasked', hquestions, List.length_append, List.length_append, length_questions]
  rfl

theorem polyline_le_ok {m : Nat} (hm : m ≤ n)
    (h : ((polyline lower upper n).answerAfter f earlier).outcome = .ok ps) :
    ∃ qs, ((polyline lower upper m).answerAfter f earlier).outcome = .ok qs := by
  induction n generalizing ps with
  | zero =>
    obtain rfl := Nat.le_zero.mp hm
    exact ⟨ps, h⟩
  | succ n ih =>
    obtain rfl | hlt := hm.eq_or_lt
    · exact ⟨ps, h⟩
    · obtain ⟨qs, hqs, -⟩ := polyline_succ_ok h
      exact ih (Nat.le_of_lt_succ hlt) hqs

/-- a pass at most doubles the number of intervals, and leaves at least half of them -/
theorem polyline_counts (h : ((polyline lower upper n).answerAfter f earlier).outcome = .ok ps) :
    50 ≤ (ps.length - 1) * 2 ^ n ∧ ps.length ≤ 50 * 2 ^ n + 1 ∧
      51 ≤ ((polyline lower upper n).answerAfter f earlier).asked.length ∧
      ((polyline lower upper n).answerAfter f earlier).asked.length ≤ 50 * 2 ^ n + 1 := by
  induction n generalizing ps with
  | zero =>
    obtain ⟨hpoints, hasked⟩ := polyline_zero_ok h
    rw [hasked, ← hpoints.length_eq, length_grid]
    decide
  | succ n ih =>
    obtain ⟨qs, hqs, hrefined, hasked⟩ := polyline_succ_ok h
    obtain ⟨hlow, hhigh, hmin, hmax⟩ := ih hqs
    have hlength := hrefined.length
    have hbent := bentCount_le isBent qs
    have htriples : 2 * tripleCount qs.length ≤ qs.length - 1 := by
      unfold tripleCount
      split <;> omega
    have hhalf : qs.length - 1 ≤ (ps.length - 1) * 2 := by omega
    have hscaled := Nat.mul_le_mul_right (2 ^ n) hhalf
    rw [hasked, pow_succ, Nat.mul_comm (2 ^ n) 2, ← Nat.mul_assoc (ps.length - 1)]
    refine ⟨?_, ?_, ?_, ?_⟩ <;> omega

/-- every pass keeps the first and the last point -/
theorem polyline_ends {ps₀ : List Point}
    (h₀ : ((polyline lower upper 0).answerAfter f earlier).outcome = .ok ps₀)
    (h : ((polyline lower upper n).answerAfter f earlier).outcome = .ok ps) :
    ps.head? = ps₀.head? ∧ ps.getLast? = ps₀.getLast? := by
  induction n generalizing ps with
  | zero =>
    rw [h] at h₀
    cases h₀
    exact ⟨rfl, rfl⟩
  | succ n ih =>
    obtain ⟨qs, hqs, hrefined, -⟩ := polyline_succ_ok h
    rw [hrefined.head?, hrefined.getLast?]
    exact ih hqs

/-- the points of a run before each pass and after the last one -/
def Stages (f : List Double → Double → Except EvalError Double) (lower upper : Double)
    (stage : Nat → List Point) : Prop :=
  ∀ n ≤ passCount, ((polyline lower upper n).answerAfter f []).outcome = .ok (stage n)

theorem Stages.length_asked {stage : Nat → List Point} (h : Stages f lower upper stage)
    (hn : n ≤ passCount) :
    ((polyline lower upper n).answerAfter f []).asked.length =
      51 + 2 * ((List.range n).map fun k => bentCount isBent (stage k)).sum := by
  induction n with
  | zero =>
    rw [(polyline_zero_ok (h 0 hn)).2, length_grid]
    rfl
  | succ n ih =>
    obtain ⟨ps, hps, -, hasked⟩ := polyline_succ_ok (h (n + 1) hn)
    rw [h n (by omega)] at hps
    cases hps
    rw [hasked, ih (by omega), List.range_succ, List.map_append, List.sum_append,
      List.map_singleton, List.sum_singleton]
    omega

/-- the run of a plot on `f` -/
def run (bounds options : Expr) (f : List Double → Double → Except EvalError Double) :
    Sampling.Answer Expr := (plot bounds options).answerAfter f []

/-- what is known of a plot that succeeds -/
theorem plot_ok {bounds options e : Expr}
    (h : (run bounds options f).outcome = .ok e) :
    ∃ lower upper o stage b, readBounds bounds = .ok (lower, upper) ∧
      Options.read procedure options = .ok o ∧ Stages f lower upper stage ∧
      Extent.ofPoints? (stage passCount) = some b ∧
      e = Expr.list (scene b (stage passCount) o) ∧
      (run bounds options f).asked =
        ((polyline lower upper passCount).answerAfter f []).asked := by
  unfold run at h ⊢
  rw [plot_eq] at h ⊢
  cases hbounds : readBounds bounds with
  | error err =>
    rw [hbounds] at h
    cases h
  | ok ends =>
    cases hoptions : Options.read procedure options with
    | error err =>
      rw [hbounds, hoptions] at h
      cases h
    | ok o =>
      rw [hbounds, hoptions] at h
      replace h : ((polyline ends.1 ends.2 passCount >>= draw o).answerAfter f []).outcome =
        .ok e := h
      obtain ⟨ps, hps, hdraw, hasked⟩ := Sampling.bind_ok h
      choose! stage hstage using fun n (hn : n ≤ passCount) => polyline_le_ok hn hps
      have hlast : stage passCount = ps := by
        have := (hstage passCount le_rfl).symm.trans hps
        cases this
        rfl
      unfold draw at hdraw hasked
      cases hb : Extent.ofPoints? ps with
      | none =>
        rw [hb] at hdraw
        cases hdraw
      | some b =>
        rw [hb] at hdraw hasked
        cases hdraw
        refine ⟨ends.1, ends.2, o, stage, b, rfl, rfl, hstage, ?_, ?_, ?_⟩
        · rw [hlast, hb]
        · rw [hlast]
        · exact hasked.trans (List.append_nil _)

end Continuous

end ChartLisp.Plot
