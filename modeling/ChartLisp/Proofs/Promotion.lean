import ChartLisp.Builtin.Arithmetic
import ChartLisp.Proofs.Arguments

/-!
# Sums and products stay with numbers as long as they can

A fold over the arguments starts with numbers and turns to complex numbers at the first complex
argument.  From there on every argument is promoted; before it none is.

* `Expr.Numeric`        the leaves of numbers and of complex numbers, all that a fold accepts
* `Expr.PromotesTo`     an argument as a complex number
* `Arithmetic.Folded`   the outcome of a fold in its three cases: an argument is refused, all are
                        numbers, or one is complex
* `run_reals`, `run_promoted`   the fold before and behind the first complex argument
* `exists_folded`       every list of arguments is in one of the cases
* `fold_eq_iff`         so the cases say what a fold gives
* `fold_isComplex_iff`  which is complex only if an argument is
* `sum_product_promote`  this for sums and for products
-/

namespace ChartLisp

namespace Expr

variable {e : Expr}

/-- a number without children -/
def IsNumber (e : Expr) : Prop := ∃ x, e.LeafOf (.number x)

/-- a complex number without children -/
def IsComplex (e : Expr) : Prop := ∃ z, e.LeafOf (.complex z)

def Numeric (e : Expr) : Prop := e.IsNumber ∨ e.IsComplex

/-- a complex number stays what it is, and a number gets the imaginary part zero -/
inductive PromotesTo (e : Expr) : Complex → Prop where
  | number {x : Double} (h : e.LeafOf (.number x)) : PromotesTo e ⟨x, 0⟩
  | complex {z : Complex} (h : e.LeafOf (.complex z)) : PromotesTo e z

theorem Numeric.promotes (h : e.Numeric) : ∃ z, e.PromotesTo z := by
  rcases h with ⟨x, hx⟩ | ⟨z, hz⟩
  · exact ⟨_, .number hx⟩
  · exact ⟨z, .complex hz⟩

theorem PromotesTo.numeric {z : Complex} (h : e.PromotesTo z) : e.Numeric := by
  cases h with
  | number hx => exact .inl ⟨_, hx⟩
  | complex hz => exact .inr ⟨z, hz⟩

theorem IsNumber.not_isComplex (h : e.IsNumber) : ¬ e.IsComplex := by
  obtain ⟨x, hx⟩ := h
  rintro ⟨z, hz⟩
  have heads : Atom.number x = Atom.complex z := hx.head.symm.trans hz.head
  cases heads

end Expr

open ChartLisp.Expr (Numeric IsNumber IsComplex PromotesTo)

/-! ## Reading one argument -/

namespace Scalar

variable {e : Expr} {procedure : String}

theorem read_number {x : Double} (h : e.LeafOf (.number x)) :
    read procedure e = .ok (.real x) := by
  rw [read, Expr.number?_eq_some.mpr h]

theorem read_complex {z : Complex} (h : e.LeafOf (.complex z)) :
    read procedure e = .ok (.complex z) := by
  have hnumber : e.number? = none := by
    rw [Option.eq_none_iff_forall_ne_some]
    exact fun x hx => IsNumber.not_isComplex ⟨x, Expr.number?_eq_some.mp hx⟩ ⟨z, h⟩
  rw [read, hnumber, Expr.complex?_eq_some.mpr h]

theorem read_refused (h : ¬ e.Numeric) :
    read procedure e = .error (.wrongType procedure (.notNumeric e.render)) := by
  have hnumber : e.number? = none := by
    rw [Option.eq_none_iff_forall_ne_some]
    exact fun x hx => h (.inl ⟨x, Expr.number?_eq_some.mp hx⟩)
  have hcomplex : e.complex? = none := by
    rw [Option.eq_none_iff_forall_ne_some]
    exact fun z hz => h (.inr ⟨z, Expr.complex?_eq_some.mp hz⟩)
  rw [read, hnumber, hcomplex]

end Scalar

/-! ## Folding them -/

namespace Arithmetic

variable (procedure : String) (init : Double) (onReals : Double → Double → Double)
  (onComplex : Complex → Complex → Complex)

/-- what becomes of the arguments of a fold -/
inductive Folded : List Expr → Except EvalError Expr → Prop where
  /-- the first argument that is neither a number nor complex is named -/
  | refused {before after : List Expr} {e : Expr} (hbefore : ∀ a ∈ before, a.Numeric)
      (he : ¬ e.Numeric) :
      Folded (before ++ e :: after) (.error (.wrongType procedure (.notNumeric e.render)))
  | number {args : List Expr} {xs : List Double}
      (hargs : List.Forall₂ (fun e x => e.LeafOf (.number x)) args xs) :
      Folded args (.ok (Expr.number (xs.foldl onReals init)))
  /-- the numbers before the first complex argument are folded as numbers -/
  | complex {before after : List Expr} {e : Expr} {xs : List Double} {z : Complex}
      {zs : List Complex} (hbefore : List.Forall₂ (fun e x => e.LeafOf (.number x)) before xs)
      (he : e.LeafOf (.complex z)) (hafter : List.Forall₂ PromotesTo after zs) :
      Folded (before ++ e :: after)
        (.ok (Expr.complex ((z :: zs).foldl onComplex ⟨xs.foldl onReals init, 0⟩)))

theorem fold_eq_foldlM (args : List Expr) :
    fold procedure init onReals onComplex args =
      (args.foldlM (step procedure onReals onComplex) (.real init)).map Scalar.toExpr := by
  show (args.foldlM (step procedure onReals onComplex) (.real init) >>= fun a => .ok a.toExpr) = _
  cases args.foldlM (step procedure onReals onComplex) (.real init) <;> rfl

variable {procedure init onReals onComplex}

section
variable {args : List Expr} {e : Expr}

theorem step_number {x y : Double} (h : e.LeafOf (.number y)) :
    step procedure onReals onComplex (.real x) e = .ok (.real (onReals x y)) := by
  rw [step, Scalar.read_number h]
  rfl

theorem step_complex {acc : Scalar} {z : Complex} (h : e.LeafOf (.complex z)) :
    step procedure onReals onComplex acc e = .ok (.complex (onComplex acc.promote z)) := by
  rw [step, Scalar.read_complex h]
  cases acc <;> rfl

theorem step_promoted {w z : Complex} (h : e.PromotesTo z) :
    step procedure onReals onComplex (.complex w) e = .ok (.complex (onComplex w z)) := by
  cases h with
  | number hx =>
    rw [step, Scalar.read_number hx]
    rfl
  | complex hz => exact step_complex hz

theorem step_refused (acc : Scalar) (h : ¬ e.Numeric) :
    step procedure onReals onComplex acc e =
      .error (.wrongType procedure (.notNumeric e.render)) := by
  rw [step, Scalar.read_refused h]
  rfl

/-- numbers alone are never promoted -/
theorem run_reals {xs : List Double}
    (h : List.Forall₂ (fun e x => e.LeafOf (.number x)) args xs) (x : Double) :
    args.foldlM (step procedure onReals onComplex) (.real x) =
      .ok (.real (xs.foldl onReals x)) := by
  induction h generalizing x with
  | nil => rfl
  | cons hy _ ih =>
    rw [List.foldlM_cons, step_number hy]
    exact ih _

/-- behind a complex number all are -/
theorem run_promoted {zs : List Complex} (h : List.Forall₂ PromotesTo args zs) (w : Complex) :
    args.foldlM (step procedure onReals onComplex) (.complex w) =
      .ok (.complex (zs.foldl onComplex w)) := by
  induction h generalizing w with
  | nil => rfl
  | cons hz _ ih =>
    rw [List.foldlM_cons, step_promoted hz]
    exact ih _

/-- the first complex argument promotes what was folded before it -/
theorem run_complex {z : Complex} (he : e.LeafOf (.complex z)) {zs : List Complex}
    (hargs : List.Forall₂ PromotesTo args zs) (x : Double) :
    (e :: args).foldlM (step procedure onReals onComplex) (.real x) =
      .ok (.complex ((z :: zs).foldl onComplex ⟨x, 0⟩)) := by
  rw [List.foldlM_cons, step_complex he]
  exact run_promoted hargs _

theorem run_refused (he : ¬ e.Numeric) (acc : Scalar) :
    (e :: args).foldlM (step procedure onReals onComplex) acc =
      .error (.wrongType procedure (.notNumeric e.render)) := by
  rw [List.foldlM_cons, step_refused acc he]
  rfl

theorem run_numeric (h : ∀ a ∈ args, a.Numeric) (acc : Scalar) :
    ∃ acc', args.foldlM (step procedure onReals onComplex) acc = .ok acc' := by
  induction args generalizing acc with
  | nil => exact ⟨acc, rfl⟩
  | cons e args ih =>
    obtain ⟨he, hargs⟩ := List.forall_mem_cons.mp h
    have hstep : ∃ acc', step procedure onReals onComplex acc e = .ok acc' := by
      rcases he with ⟨x, hx⟩ | ⟨z, hz⟩
      · exact ⟨_, by rw [step, Scalar.read_number hx]; rfl⟩
      · exact ⟨_, step_complex hz⟩
    obtain ⟨acc', hacc⟩ := hstep
    rw [List.foldlM_cons, hacc]
    exact ih hargs acc'

theorem fold_append {before : List Expr} {acc : Scalar}
    (h : before.foldlM (step procedure onReals onComplex) (.real init) = .ok acc) :
    fold procedure init onReals onComplex (before ++ args) =
      (args.foldlM (step procedure onReals onComplex) acc).map Scalar.toExpr := by
  rw [fold_eq_foldlM, List.foldlM_append, h]
  rfl

end

/-! ## The cases -/

theorem Folded.fold_eq {args : List Expr} {r : Except EvalError Expr}
    (h : Folded procedure init onReals onComplex args r) :
    fold procedure init onReals onComplex args = r := by
  cases h with
  | refused hbefore he =>
    obtain ⟨acc, hacc⟩ := run_numeric hbefore (.real init)
    rw [fold_append hacc, run_refused he]
    rfl
  | number hargs =>
    rw [fold_eq_foldlM, run_reals hargs]
    rfl
  | complex hbefore he hafter =>
    rw [fold_append (run_reals hbefore init), run_complex he hafter]
    rfl

/-- either all elements have the property, or a first one has not -/
theorem forall_or_first {α : Type} (P : α → Prop) (xs : List α) :
    (∀ x ∈ xs, P x) ∨
      ∃ before x after, xs = before ++ x :: after ∧ (∀ y ∈ before, P y) ∧ ¬ P x := by
  classical
  cases hfind : xs.find? fun x => !decide (P x) with
  | none => exact .inl fun x hx => by simpa using List.find?_eq_none.mp hfind x hx
  | some x =>
    obtain ⟨hx, before, after, rfl, hbefore⟩ := List.find?_eq_some_iff_append.mp hfind
    exact .inr ⟨before, x, after, rfl, fun y hy => by simpa using hbefore y hy, by simpa using hx⟩

variable (procedure init onReals onComplex) in
theorem exists_folded (args : List Expr) : ∃ r, Folded procedure init onReals onComplex args r := by
  -- an argument that is refused comes first, also if it stands behind a complex one
  rcases forall_or_first Numeric args with hargs | ⟨before, e, after, rfl, hbefore, he⟩
  · rcases forall_or_first IsNumber args with hreals | ⟨before, e, after, rfl, hbefore, he⟩
    · obtain ⟨xs, hxs⟩ := exists_forall₂_iff.mpr hreals
      exact ⟨_, .number hxs⟩
    · rw [List.forall_mem_append, List.forall_mem_cons] at hargs
      obtain ⟨-, hnumeric, hafter⟩ := hargs
      obtain ⟨z, hz⟩ := hnumeric.resolve_left he
      obtain ⟨xs, hxs⟩ := exists_forall₂_iff.mpr hbefore
      obtain ⟨zs, hzs⟩ := exists_forall₂_iff.mpr fun a ha => (hafter a ha).promotes
      exact ⟨_, .complex hxs hz hzs⟩
  · exact ⟨_, .refused hbefore he⟩

theorem fold_eq_iff {args : List Expr} {r : Except EvalError Expr} :
    fold procedure init onReals onComplex args = r ↔
      Folded procedure init onReals onComplex args r := by
  constructor
  · rintro rfl
    obtain ⟨r, hr⟩ := exists_folded procedure init onReals onComplex args
    rwa [hr.fold_eq]
  · exact fun h => h.fold_eq

theorem fold_isComplex_iff (args : List Expr) :
    (∃ z, fold procedure init onReals onComplex args = .ok (Expr.complex z)) ↔
      (∀ e ∈ args, e.Numeric) ∧ ∃ e ∈ args, e.IsComplex := by
  obtain ⟨r, hr⟩ := exists_folded procedure init onReals onComplex args
  rw [hr.fold_eq]
  cases hr with
  | @refused before after e hbefore he =>
    constructor
    · rintro ⟨z, hz⟩
      cases hz
    · rintro ⟨hnumeric, -⟩
      exact absurd (hnumeric e (by simp)) he
  | number hargs =>
    constructor
    · rintro ⟨z, hz⟩
      cases hz
    · rintro ⟨-, e, he, hcomplex⟩
      have hreals := exists_forall₂_iff.mp ⟨_, hargs⟩
      exact absurd hcomplex (IsNumber.not_isComplex (hreals e he))
  | @complex before after e xs z zs hbefore he hafter =>
    have hnumber : ∀ a ∈ before, a.IsNumber := exists_forall₂_iff.mp ⟨_, hbefore⟩
    have hpromotes : ∀ a ∈ after, ∃ z, a.PromotesTo z := exists_forall₂_iff.mp ⟨_, hafter⟩
    refine ⟨fun _ => ⟨?_, e, by simp, z, he⟩, fun _ => ⟨_, rfl⟩⟩
    rw [List.forall_mem_append, List.forall_mem_cons]
    exact ⟨fun a ha => .inl (hnumber a ha), .inr ⟨z, he⟩, fun a ha => (hpromotes a ha).elim
      fun _ h => h.numeric⟩

/-- Sums and products of any arguments: what they give in each case, and when that is complex. -/
theorem sum_product_promote (args : List Expr) :
    (∀ r, sum args = r ↔ Folded "+" 0 (· + ·) (· + ·) args r) ∧
      (∀ r, product args = r ↔ Folded "*" 1 (· * ·) (· * ·) args r) ∧
      ∀ operation ∈ [sum, product],
        (∃ z, operation args = .ok (Expr.complex z)) ↔
          (∀ e ∈ args, e.Numeric) ∧ ∃ e ∈ args, e.IsComplex := by
  refine ⟨fun r => fold_eq_iff, fun r => fold_eq_iff, ?_⟩
  intro operation hop
  rcases List.mem_pair.mp hop with rfl | rfl
  · exact fold_isComplex_iff args
  · exact fold_isComplex_iff args

end Arithmetic

end ChartLisp
