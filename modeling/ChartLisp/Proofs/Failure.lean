import ChartLisp.Eval
import ChartLisp.Proofs.Arity

/-!
# Failures that a program brings about by itself

An evaluation also ends when it nests too deep or is interrupted, and there may be no program to
evaluate.  No check of a name, an argument or a special form fails with one of these three.

* `EvalError.isOrdinary`   the other errors
* `Ordinary x`             `x` fails with those only
* `Blames.ordinary`        whoever finds fault with an argument does
* `Sampling.Ordinary`      the same for a plot, whose log entries are plain besides
* `Builtin.call_ordinary`, `Continuous.plot_ordinary`, `parameterNames_ordinary`, …   one lemma for
                           each computation that an evaluation runs
-/

namespace ChartLisp

/-- errors about the program, and not about how it is run -/
def EvalError.isOrdinary : EvalError → Bool
  | .noProgram | .tooDeep | .interrupted => false
  | _ => true

/-- entries that tell neither of an interrupt nor of the depth limit -/
def Event.isPlain : Event → Bool
  | .interruptSeen | .depthReached => false
  | _ => true

def Ordinary {α : Type} (x : Except EvalError α) : Prop := ∀ e, x = .error e → e.isOrdinary = true

namespace Ordinary

variable {α β : Type}

theorem ok (a : α) : Ordinary (.ok a : Except EvalError α) := fun _ h => nomatch h

theorem error {e : EvalError} (h : e.isOrdinary = true) :
    Ordinary (.error e : Except EvalError α) := by
  intro e' he
  cases he
  exact h

theorem bind {x : Except EvalError α} {k : α → Except EvalError β} (h : Ordinary x)
    (hk : ∀ a, Ordinary (k a)) : Ordinary (x >>= k) := by
  cases x with
  | error e => exact error (h e rfl)
  | ok a => exact hk a

end Ordinary

theorem Blames.ordinary {α : Type} {procedure : String} {x : Except EvalError α}
    (h : Blames procedure x) : Ordinary x := by
  intro e he
  have hblames := h e he
  cases e with
  | wrongType name fault => rfl
  | unusable name fault => rfl
  | _ => exact hblames.elim

/-! ## Plots -/

namespace Plot

namespace Sampling

variable {α β : Type}

/-- whatever the values are, the sampling fails with ordinary errors and notes plain entries -/
inductive Ordinary : Sampling α → Prop where
  | done (a : α) : Ordinary (.done a)
  | fail {e : EvalError} (h : e.isOrdinary = true) : Ordinary (.fail e)
  | note {v : Event} {s : Sampling α} (hv : v.isPlain = true) (h : Ordinary s) :
      Ordinary (.note v s)
  | ask (x : Double) {s : Double → Sampling α} (h : ∀ y, Ordinary (s y)) : Ordinary (.ask x s)

namespace Ordinary

theorem bind {s : Sampling α} {k : α → Sampling β} (h : Ordinary s) (hk : ∀ a, Ordinary (k a)) :
    Ordinary (s >>= k) := by
  induction h with
  | done a => exact hk a
  | fail he => exact .fail he
  | note hv _ ih => exact .note hv ih
  | ask x _ ih => exact .ask x ih

theorem ofExcept {x : Except EvalError α} (h : ChartLisp.Ordinary x) :
    Ordinary (Sampling.ofExcept x) := by
  cases x with
  | ok a => exact .done a
  | error e => exact .fail (h e rfl)

theorem record {v : Event} (h : v.isPlain = true) : Ordinary (Sampling.record v) :=
  .note h (.done ())

theorem mapM {f : α → Sampling β} (h : ∀ a, Ordinary (f a)) (xs : List α) :
    Ordinary (xs.mapM f) := by
  induction xs with
  | nil =>
    rw [List.mapM_nil]
    exact .done []
  | cons x xs ih =>
    rw [List.mapM_cons]
    exact (h x).bind fun y => ih.bind fun ys => .done (y :: ys)

end Ordinary

end Sampling

theorem refine_ordinary {bent : Point → Point → Point → Bool} {sample : Double → Sampling Point}
    (h : ∀ x, (sample x).Ordinary) (ps : List Point) : (refine bent sample ps).Ordinary := by
  fun_induction refine bent sample ps with
  | case1 a b c rest _ ih =>
    refine (h _).bind fun p => (h _).bind fun q => ih.bind fun refined => ?_
    exact .done _
  | case2 a b c rest _ ih => exact ih.bind fun refined => .done _
  | case3 ps _ => exact .done ps

namespace Continuous

theorem readBounds_blames (e : Expr) : Blames procedure (readBounds e) := by
  refine (Argument.elements_blames _ e).bind fun es => ?_
  split
  · refine (Argument.number_blames _ _).bind fun lower => ?_
    refine (Argument.number_blames _ _).bind fun upper => ?_
    split
    · exact Blames.error rfl
    · exact Blames.ok _
  · exact Blames.error rfl

theorem sample_ordinary (x : Double) : (sample x).Ordinary :=
  .ask x fun y => .ofExcept (finitePoint_blames _ x y).ordinary

theorem refineAll_ordinary (passes : List Nat) (ps : List Point) :
    (refineAll passes ps).Ordinary := by
  induction passes generalizing ps with
  | nil => exact .done ps
  | cons pass passes ih =>
    refine (refine_ordinary sample_ordinary ps).bind fun qs => ?_
    exact (Sampling.Ordinary.record rfl).bind fun _ => ih qs

theorem plot_ordinary (bounds options : Expr) : (plot bounds options).Ordinary := by
  refine (Sampling.Ordinary.ofExcept (readBounds_blames bounds).ordinary).bind fun ends => ?_
  refine (Sampling.Ordinary.ofExcept (Options.read_blames _ options).ordinary).bind fun o => ?_
  refine (Sampling.Ordinary.mapM (fun i => sample_ordinary _) _).bind fun ps => ?_
  refine (Sampling.Ordinary.record rfl).bind fun _ => ?_
  refine (refineAll_ordinary _ ps).bind fun qs => ?_
  cases Extent.ofPoints? qs with
  | none => exact .fail rfl
  | some b => exact .done _

end Continuous

end Plot

/-! ## Built-in procedures -/

namespace Builtin

theorem call_ordinary (b : Builtin) (args : List Expr) : Ordinary (b.call args) := by
  unfold call
  split
  · rename_i haccepts
    exact (b.takes_run.accepted haccepts).ordinary
  · exact Ordinary.error rfl

theorem events_plain (b : Builtin) (args : List Expr) (value : Expr) :
    ∀ v ∈ b.events args value, v.isPlain = true := by
  intro v hv
  unfold events at hv
  split at hv
  · rw [List.mem_singleton.mp hv]
    rfl
  · exact absurd hv List.not_mem_nil

end Builtin

/-! ## Names -/

theorem requireUnreserved_ordinary (name : String) : Ordinary (requireUnreserved name) := by
  unfold requireUnreserved
  split
  · exact Ordinary.error rfl
  · split
    · exact Ordinary.error rfl
    · exact Ordinary.ok ()

namespace Scope

theorem requireUnbound_ordinary (s : Scope) (name : String) : Ordinary (s.requireUnbound name) := by
  refine (requireUnreserved_ordinary name).bind fun _ => ?_
  split
  · exact Ordinary.error rfl
  · exact Ordinary.ok _

theorem define_ordinary (s : Scope) (name : String) (v : Expr) : Ordinary (s.define name v) :=
  (s.requireUnbound_ordinary name).bind fun _ => Ordinary.ok _

theorem bindArgument_ordinary (s : Scope) (name : String) (v : Expr) :
    Ordinary (s.bindArgument name v) := by
  refine (requireUnreserved_ordinary name).bind fun _ => ?_
  split
  · exact Ordinary.error rfl
  · exact Ordinary.ok _

theorem procedure_ordinary (s : Scope) (name : String) : Ordinary (s.procedure name) := by
  unfold procedure
  split
  · exact Ordinary.ok _
  · split
    · split
      · exact Ordinary.ok _
      · exact Ordinary.error rfl
    · exact Ordinary.error rfl

end Scope

theorem Closure.bindArguments_ordinary (ps args : List Expr) (s : Scope) :
    Ordinary (Closure.bindArguments ps args s) := by
  induction ps generalizing args s with
  | nil => exact Ordinary.ok s
  | cons p ps ih =>
    cases args with
    | nil => exact Ordinary.ok s
    | cons a as =>
      unfold Closure.bindArguments
      split
      · exact Ordinary.error rfl
      · exact (s.bindArgument_ordinary _ a).bind fun u => ih as u

namespace Eval

theorem parameterNames_ordinary (seen : List String) (ps : List Expr) :
    Ordinary (parameterNames seen ps) := by
  induction ps generalizing seen with
  | nil => exact Ordinary.ok []
  | cons p ps ih =>
    unfold parameterNames
    split
    · exact Ordinary.error rfl
    · rename_i name _
      refine (requireUnreserved_ordinary name).bind fun _ => ?_
      split
      · exact Ordinary.error rfl
      · exact (ih (name :: seen)).bind fun _ => Ordinary.ok _

theorem keyOf_ordinary (form : Form) (e : Expr) : Ordinary (keyOf form e) := by
  unfold keyOf
  split
  · exact Ordinary.ok _
  · exact Ordinary.error rfl

end Eval

end ChartLisp
