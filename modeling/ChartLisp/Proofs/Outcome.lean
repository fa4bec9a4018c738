import ChartLisp.Proofs.DepthLimit
import ChartLisp.Proofs.Shape

/-!
# Evaluations as functions of their scope

An evaluation that defines nothing and is not interrupted leaves everything but the log as it was,
and the log is never read.  What it comes to is a function of the scope alone, so such evaluations
can be taken in any order.

* `Run.Calm s`        runs in the scope `s` without a pending interrupt
* `Action.outcome s`  what an action comes to in `s`
* `Action.Answers s`  the action comes to the same from every calm run in `s`, and keeps `s`
* `Answers.bind`, `Answers.mapM`   sequences of actions answer with the sequence of outcomes
* `eval_answers`, `Eval.call_answers`   expressions without definitions, and procedure calls, answer
-/

namespace ChartLisp

/-- a run in the scope `s` without a pending interrupt -/
structure Run.Calm (s : Scope) (r : Run) : Prop where
  scope : r.scope = s
  raised : r.raised = false

namespace Action

variable {α β γ : Type} {s : Scope}

/-- what the action comes to in `s` if nothing interrupts it -/
def outcome (s : Scope) (a : Action α) : Except EvalError α := (a.exec (Run.start s)).1

/-- from every calm run in `s` the action comes to `x`, and `s` stays as it is -/
def Answers (s : Scope) (a : Action α) (x : Except EvalError α) : Prop :=
  ∀ r : Run, r.Calm s → ∃ r' : Run, a.exec r = (x, r') ∧ r'.Calm s

namespace Answers

theorem outcome_eq {a : Action α} {x : Except EvalError α} (h : Answers s a x) :
    a.outcome s = x := by
  obtain ⟨r', hexec, _⟩ := h (Run.start s) ⟨rfl, rfl⟩
  unfold outcome
  rw [hexec]

/-- an action that does not look at the log, keeps its scope and takes a course of evaluation -/
theorem of_runs {a : Action α} (hsim : Sim (fun _ => False) Eq Eq a a)
    (hscope : ∀ r : Run, (a.exec r).2.scope = r.scope) (hruns : Runs a) :
    Answers s a (a.outcome s) := by
  intro r hr
  have hagree := hsim r (Run.start s) ⟨hr.scope, hr.raised⟩
  have hraised := ((hruns r).raised hr.raised).1
  exact ⟨(a.exec r).2, Prod.ext hagree.outcome_eq rfl, (hscope r).trans hr.scope, hraised⟩

theorem pure (v : α) : Answers s (pure v) (.ok v) := fun r hr => ⟨r, rfl, hr⟩

theorem bind {a : Action α} {k : α → Action β} {x : Except EvalError α}
    {l : α → Except EvalError β} (h : Answers s a x)
    (hk : ∀ v, x = .ok v → Answers s (k v) (l v)) : Answers s (a >>= k) (x >>= l) := by
  intro r hr
  obtain ⟨r₁, hexec, hr₁⟩ := h r hr
  rw [exec_bind, hexec]
  cases x with
  | error e => exact ⟨r₁, rfl, hr₁⟩
  | ok v => exact hk v rfl r₁ hr₁

theorem mapM {f : γ → Action α} {g : γ → Except EvalError α} {xs : List γ}
    (h : ∀ x ∈ xs, Answers s (f x) (g x)) : Answers s (xs.mapM f) (xs.mapM g) := by
  induction xs with
  | nil =>
    rw [List.mapM_nil, List.mapM_nil]
    exact Answers.pure []
  | cons x xs ih =>
    rw [List.mapM_cons, List.mapM_cons]
    refine (h x List.mem_cons_self).bind fun y _ => ?_
    refine (ih fun z hz => h z (List.mem_cons_of_mem x hz)).bind fun ys _ => ?_
    exact Answers.pure (y :: ys)

end Answers

end Action

open ChartLisp.Action (Sim Answers)

variable {s : Scope}

/-! ## Evaluations -/

theorem eval_answers (depth : Nat) {e : Expr} (he : e.Avoids .define) :
    Answers s (eval depth e) ((eval depth e).outcome s) := by
  refine Answers.of_runs ?_ ?_ ?_
  · exact equal_simulation.eval_sim depth e e rfl
  · intro r
    exact (eval_grows depth e r).eq_of_empty he.not_defines
  · exact eval_course depth e

/-- an evaluation with a level left answers as its node does -/
theorem eval_succ_answers {depth : Nat} {e : Expr} {x : Except EvalError Expr}
    (h : Answers s (Eval.node (eval depth) (Eval.call (eval depth)) e) x) :
    Answers s (eval (depth + 1) e) x := by
  intro r hr
  rw [exec_eval_succ depth e hr.raised]
  exact h r hr

theorem outcome_eval_zero (e : Expr) : (eval 0 e).outcome s = .error .tooDeep :=
  congrArg Prod.fst (exec_eval_zero e rfl)

/-- what an evaluation comes to does not depend on the log, whatever it defines -/
theorem exec_eval_outcome (depth : Nat) (e : Expr) {r : Run} (hr : r.raised = false) :
    ((eval depth e).exec r).1 = (eval depth e).outcome r.scope := by
  have hsim : Sim (fun _ => False) Eq Eq (eval depth e) (eval depth e) :=
    equal_simulation.eval_sim depth e e rfl
  exact (hsim r (Run.start r.scope) ⟨rfl, hr⟩).outcome_eq

/-- an evaluation that comes to a value was not interrupted -/
theorem calm_of_exec_ok {depth : Nat} {e v : Expr} {r : Run}
    (h : ((eval depth e).exec r).1 = .ok v) : r.raised = false := by
  cases hr : r.raised with
  | false => rfl
  | true =>
    rw [exec_eval_raised depth e hr] at h
    cases h

theorem outcome_eval_mono {few many : Nat} (h : few ≤ many) {e v : Expr}
    (hv : (eval few e).outcome s = .ok v) : (eval many e).outcome s = .ok v := by
  have hagree := eval_depth_sim h e e rfl (Run.start s) (Run.start s) ⟨rfl, rfl⟩
  have hne : (eval few e).outcome s ≠ .error .tooDeep := by
    rw [hv]
    exact nofun
  exact (hagree.eq_of_ne_tooDeep hne).1.trans hv

/-! ## Procedure calls -/

/-- the procedure of a name is one that the simulations speak of -/
theorem Scope.procedure_rel {name : String} {p : Procedure} (h : s.procedure name = .ok p) :
    Procedure.Rel Eq p p := by
  have hsame := (equal_simulation.staging fun _ => False).procedure (w := .stage)
    (.same (equal_simulation.lookup name (rfl : s = s)))
  rw [h] at hsame
  cases hsame with
  | ok hp => exact hp

namespace Eval

theorem procedureNamed_answers (name : String) :
    Answers s (procedureNamed name) (s.procedure name) := by
  intro r hr
  refine ⟨r, ?_, hr⟩
  unfold procedureNamed
  rw [Action.exec_get_bind, Action.exec_ofExcept, hr.scope]

variable {name : String} {p : Procedure} (hp : s.procedure name = .ok p) (args : List Expr)
include hp

theorem call_answers (depth : Nat) :
    Answers s (call (eval depth) name p args) ((call (eval depth) name p args).outcome s) := by
  refine Answers.of_runs ?_ ?_ ?_
  · exact equal_simulation.call_sim (equal_simulation.eval_sim depth) name p p args args
      (Scope.procedure_rel hp) (List.forall₂_refl args)
  · intro r
    exact (call_grows (P := fun _ => False) (eval depth) name p args r).eq_of_empty fun _ h => h
  · exact Action.runs_closed.call
      (fun t body => Action.Runs.inScope (eval_course depth body) t) name p args

/-- a call comes to the same with more room, unless its body ends at the limit -/
theorem outcome_call_mono {few many : Nat} (h : few ≤ many) :
    (call (eval few) name p args).outcome s = .error .tooDeep ∨
      (call (eval many) name p args).outcome s = (call (eval few) name p args).outcome s := by
  have hagree := equal_simulation.call_sim (eval_depth_sim h) name p p args args
    (Scope.procedure_rel hp) (List.forall₂_refl args) (Run.start s) (Run.start s) ⟨rfl, rfl⟩
  by_cases hdeep : (call (eval few) name p args).outcome s = .error .tooDeep
  · exact .inl hdeep
  · exact .inr (hagree.eq_of_ne_tooDeep hdeep).1

end Eval

end ChartLisp
