import ChartLisp.Proofs.Forms

/-!
# What can happen in the course of an evaluation

`Course r o r'` lists everything an evaluation can do on its way from the state `r` to the state
`r'`, where it ends with the error `o` or with none.  Facts that hold of all evaluations are proved
by induction on it.

* `eval_course`                 every evaluation takes such a course
* `Course.raised`               without a pending interrupt none is seen, and none comes up
* `Course.log`                  the log tells whether the depth limit was reached, and if it was
                                the evaluation ends with it
* `Course.ne_noProgram`         no evaluation says that there is nothing to evaluate
-/

namespace ChartLisp

inductive Course : Run → Option EvalError → Run → Prop where
  | done (r : Run) : Course r none r
  | failed {e : EvalError} (h : e.isOrdinary = true) (r : Run) : Course r (some e) r
  | noted {v : Event} (h : v.isPlain = true) (r : Run) :
      Course r none { r with log := v :: r.log }
  | defined {r : Run} {name : String} {v : Expr} {s : Scope} (h : r.scope.define name v = .ok s) :
      Course r none { r with scope := s }
  | interrupted {r : Run} (h : r.raised = true) :
      Course r (some .interrupted) { r with raised := false, log := .interruptSeen :: r.log }
  | tooDeep (r : Run) : Course r (some .tooDeep) { r with log := .depthReached :: r.log }
  | seq {r r₁ r₂ : Run} {o : Option EvalError} (h : Course r none r₁) (h' : Course r₁ o r₂) :
      Course r o r₂
  | inScope {r r₁ : Run} {o : Option EvalError} (s : Scope)
      (h : Course { r with scope := s } o r₁) : Course r o { r₁ with scope := r.scope }
  | shielded {r r₁ : Run} {o : Option EvalError} (h : Course { r with raised := false } o r₁) :
      Course r o { r₁ with raised := r.raised }

/-- the error of an outcome -/
def failure {α : Type} : Except EvalError α → Option EvalError
  | .ok _ => none
  | .error e => some e

theorem failure_eq_some {α : Type} {x : Except EvalError α} {e : EvalError} :
    failure x = some e ↔ x = .error e := by
  cases x <;> simp [failure]

/-! ## Evaluations take such a course -/

namespace Action

variable {α β : Type}

def Runs (a : Action α) : Prop := ∀ r, Course r (failure (a.exec r).1) (a.exec r).2

theorem Runs.bind {a : Action α} {k : α → Action β} (h : Runs a) (hk : ∀ x, Runs (k x)) :
    Runs (a >>= k) := by
  intro r
  have ha := h r
  rw [exec_bind]
  cases hx : a.exec r with
  | mk x r' =>
    rw [hx] at ha
    cases x with
    | error e => exact ha
    | ok x => exact .seq ha (hk x r')

theorem Runs.inScope {a : Action α} (h : Runs a) (s : Scope) : Runs (inScope s a) := by
  intro r
  rw [exec_inScope]
  exact .inScope s (h { r with scope := s })

theorem runs_closed : Closed fun _ a => Runs a where
  pure _ r := .done r
  throw h r := .failed h r
  bind := Runs.bind
  get r := .done r
  record h r := .noted h r
  shielded h r := .shielded (h { r with raised := false })

theorem poll_runs : Runs poll := by
  intro r
  rw [exec_poll]
  by_cases h : r.raised
  · rw [if_pos h]
    exact .interrupted h
  · rw [if_neg h]
    exact .done r

theorem defining_runs (name : String) (v : Expr) : Runs (defining name v) := by
  intro r
  rw [exec_defining]
  cases hs : r.scope.define name v with
  | error e => exact .failed (r.scope.define_ordinary name v e hs) r
  | ok s => exact .defined hs

end Action

open ChartLisp.Action (Runs runs_closed)

theorem eval_course (depth : Nat) (e : Expr) (r : Run) :
    Course r (failure ((eval depth e).exec r).1) ((eval depth e).exec r).2 := by
  have runs : Runs (eval depth e) := by
    induction depth generalizing e with
    | zero =>
      refine Action.poll_runs.bind fun _ => ?_
      exact fun r => .tooDeep r
    | succ depth ih =>
      refine Action.poll_runs.bind fun _ => ?_
      refine runs_closed.node (fun _ c _ => ih c) ?_ (fun _ _ name v _ _ => Action.defining_runs name v)
      exact runs_closed.call fun s body => (ih body).inScope s
  exact runs r

/-! ## What follows for all of them -/

namespace Course

variable {r r' : Run} {o : Option EvalError}

theorem ne_noProgram (h : Course r o r') : o ≠ some .noProgram := by
  induction h with
  | done | noted | defined | interrupted | tooDeep => exact nofun
  | failed h =>
    intro he
    cases he
    cases h
  | seq _ _ _ ih => exact ih
  | inScope _ _ ih => exact ih
  | shielded _ ih => exact ih

theorem raised (h : Course r o r') (hr : r.raised = false) :
    r'.raised = false ∧ o ≠ some .interrupted := by
  induction h with
  | done | noted | defined | tooDeep => exact ⟨hr, nofun⟩
  | failed h =>
    refine ⟨hr, fun he => ?_⟩
    cases he
    cases h
  | interrupted h =>
    rw [hr] at h
    cases h
  | seq _ _ ih ih' => exact ih' (ih hr).1
  | inScope _ _ ih => exact ih hr
  | shielded _ ih => exact ⟨hr, (ih rfl).2⟩

/-- Entries are only added, and one about the limit exactly by an evaluation that the limit ends.
What goes on after a step that ends in no error cannot have been preceded by such an entry. -/
theorem log (h : Course r o r') :
    ∃ new, r'.log = new ++ r.log ∧ (Event.depthReached ∈ new ↔ o = some .tooDeep) := by
  induction h with
  | done | defined => exact ⟨[], rfl, by simp⟩
  | @failed e h =>
    refine ⟨[], rfl, by simp, fun he => ?_⟩
    cases he
    cases h
  | @noted v h =>
    have hv : Event.depthReached ≠ v := by
      intro hv
      rw [← hv] at h
      cases h
    exact ⟨[v], rfl, by simp [hv]⟩
  | interrupted _ => exact ⟨[.interruptSeen], rfl, by simp⟩
  | tooDeep _ => exact ⟨[.depthReached], rfl, by simp⟩
  | seq _ _ ih ih' =>
    obtain ⟨new, hnew, hmem⟩ := ih
    obtain ⟨new', hnew', hmem'⟩ := ih'
    have hnot : Event.depthReached ∉ new := fun hin => nomatch hmem.mp hin
    refine ⟨new' ++ new, by rw [hnew', hnew, List.append_assoc], ?_⟩
    rw [List.mem_append, hmem']
    simp [hnot]
  | inScope _ _ ih => exact ih
  | shielded _ ih => exact ih

end Course

end ChartLisp
