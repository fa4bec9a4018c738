import ChartLisp.Proofs.Course
import ChartLisp.Proofs.Simulation.Eval

/-!
# The depth limit ends evaluations and does nothing else

Two evaluations of one expression that may nest to different depths go through the same steps until
one of them reaches its limit, and from there on nothing but the failure `tooDeep` can come of it.

* `eval_depth_sim`          the evaluation with more room does what the one with less room does,
                            unless that one ends at its limit
* `eval_depth_transparent`  an outcome other than `tooDeep` does not depend on the room, and the
                            limit, reached anywhere inside, is the outcome of the whole
-/

namespace ChartLisp

open ChartLisp.Action (Sim)
open ChartLisp.Simulation (Evaluates)

/-- the errors after which two evaluations of different depth are no longer compared -/
def isTooDeep (e : EvalError) : Prop := e = .tooDeep

/-- an evaluation that does not end at its limit and the one with more room -/
theorem Action.Agree.eq_of_ne_tooDeep {x y : Except EvalError Expr × Run}
    (h : Agree isTooDeep Eq Eq x y) (hne : x.1 ≠ .error .tooDeep) :
    y.1 = x.1 ∧ y.2.scope = x.2.scope := by
  cases h with
  | stopped hs => exact absurd (congrArg Except.error hs) hne
  | ok hv hl => exact ⟨congrArg Except.ok hv.symm, hl.scope.symm⟩
  | error hl => exact ⟨rfl, hl.scope.symm⟩

theorem equal_simulation : Simulation Eq Eq (Eq : Scope → Scope → Prop) :=
  Simulation.ofScopes (fun h _ => h ▸ rfl)
    (fun {s s'} h name v => by
      subst h
      exact SameOutcome.refl (s.define name v))
    (fun h => h ▸ rfl) (fun h _ _ => h ▸ rfl)

theorem eval_zero_sim (many : Nat) : Evaluates isTooDeep Eq Eq Eq (eval 0) (eval many) := by
  intro e e' _
  have limit : ∀ b : Action Expr, Sim isTooDeep Eq Eq
      (Action.record .depthReached >>= fun _ => throw .tooDeep : Action Expr) b :=
    fun _ _ _ _ => .stopped rfl
  cases many with
  | zero => exact Sim.poll.bind fun _ _ _ => limit _
  | succ many => exact Sim.poll.bind fun _ _ _ => limit _

/-- both evaluations count down together, so the one with less room gets to its limit first -/
theorem eval_depth_sim {few many : Nat} (h : few ≤ many) :
    Evaluates isTooDeep Eq Eq Eq (eval few) (eval many) := by
  induction few generalizing many with
  | zero => exact eval_zero_sim many
  | succ few ih =>
    obtain ⟨more, rfl⟩ : ∃ more, many = more + 1 := ⟨many - 1, by omega⟩
    have hev : Evaluates isTooDeep Eq Eq Eq (eval few) (eval more) := ih (by omega)
    intro e e' he
    exact Sim.poll.bind fun _ _ _ =>
      equal_simulation.node_sim hev (equal_simulation.call_sim hev) he

/-- Evaluations that start with `d'` and with `d` levels used up, `d' ≤ d`, end in the same outcome
and leave the same scope, unless the second one ends with `tooDeep`.  And an evaluation ends with
`tooDeep` exactly if it reached the limit at some point, whatever it was doing there. -/
theorem eval_depth_transparent (limit : Nat) {d' d : Nat} (h : d' ≤ d) (e : Expr) (r : Run) :
    (((eval (limit - d) e).exec r).1 ≠ .error .tooDeep →
      ((eval (limit - d') e).exec r).1 = ((eval (limit - d) e).exec r).1 ∧
      ((eval (limit - d') e).exec r).2.scope = ((eval (limit - d) e).exec r).2.scope) ∧
    ∃ entries, ((eval (limit - d) e).exec r).2.log = entries ++ r.log ∧
      (Event.depthReached ∈ entries ↔ ((eval (limit - d) e).exec r).1 = .error .tooDeep) := by
  constructor
  · intro hne
    have hle : limit - d ≤ limit - d' := by omega
    have hagree := eval_depth_sim hle e e rfl r r ⟨rfl, rfl⟩
    generalize (eval (limit - d) e).exec r = x at hne hagree ⊢
    generalize (eval (limit - d') e).exec r = y at hagree ⊢
    cases hagree with
    | stopped hs => exact absurd (congrArg Except.error hs) hne
    | ok hv hl => exact ⟨congrArg Except.ok hv.symm, hl.scope.symm⟩
    | error hl => exact ⟨rfl, hl.scope.symm⟩
  · obtain ⟨entries, hlog, hmem⟩ := (eval_course (limit - d) e r).log
    exact ⟨entries, hlog, hmem.trans failure_eq_some⟩

/-- `(begin (define f (lambda (x) (list x))) (f (list)))`, which needs four levels -/
def fourLevels : Expr :=
  Expr.node (.symbol "begin")
    [Expr.node (.symbol "define") [Expr.symbol "f",
      Expr.node (.symbol "lambda") [Expr.symbol "x", Expr.list [Expr.symbol "x"]]],
    Expr.node (.symbol "f") [Expr.list []]]

theorem eval_fourLevels :
    ((eval (depthLimit - 125) fourLevels).exec (Run.start Scope.fresh)).1 = .error .tooDeep ∧
    ((eval (depthLimit - 124) fourLevels).exec (Run.start Scope.fresh)).1 =
      .ok (Expr.list [Expr.list []]) ∧
    ((eval (depthLimit - 0) fourLevels).exec (Run.start Scope.fresh)).1 =
      ((eval (depthLimit - 124) fourLevels).exec (Run.start Scope.fresh)).1 := by
  have hlow : ((eval (depthLimit - 125) fourLevels).exec (Run.start Scope.fresh)).1 =
      .error .tooDeep := rfl
  have hok : ((eval (depthLimit - 124) fourLevels).exec (Run.start Scope.fresh)).1 =
      .ok (Expr.list [Expr.list []]) := rfl
  have hne : ((eval (depthLimit - 124) fourLevels).exec (Run.start Scope.fresh)).1 ≠
      .error .tooDeep := by
    rw [hok]
    exact nofun
  have hall := eval_depth_transparent depthLimit (Nat.zero_le 124) fourLevels (Run.start Scope.fresh)
  exact ⟨hlow, hok, (hall.1 hne).1⟩

end ChartLisp
