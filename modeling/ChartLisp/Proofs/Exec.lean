import ChartLisp.Eval

/-!
# How actions run

One equation for each way an action is put together.  After these no proof looks into the layers
that actions are made of.

* `exec_bind`       a failure ends the sequence, and the state it leaves is the state of the whole
* `exec_get_bind`   reading the state goes on in the state that was read
* `exec_poll`       a pending interrupt is the only thing that a poll reacts to
* `exec_eval_raised`, `exec_eval_zero`, `exec_eval_succ`   how an evaluation begins
-/

namespace ChartLisp

namespace Action

variable {α β : Type}

theorem exec_bind (a : Action α) (k : α → Action β) (r : Run) :
    (a >>= k).exec r =
      match a.exec r with
      | (.ok x, r') => (k x).exec r'
      | (.error e, r') => (.error e, r') := by
  show (ExceptT.bindCont k (a.exec r).1).run (a.exec r).2 = _
  rcases a.exec r with ⟨e | x, r'⟩ <;> rfl

theorem exec_bind_ok {a : Action α} {k : α → Action β} {r r' : Run} {x : α}
    (h : a.exec r = (.ok x, r')) : (a >>= k).exec r = (k x).exec r' := by
  rw [exec_bind, h]

theorem exec_get_bind (k : Run → Action β) (r : Run) : (get >>= k).exec r = (k r).exec r := rfl

theorem exec_record (v : Event) (r : Run) :
    (record v).exec r = (.ok (), { r with log := v :: r.log }) := rfl

theorem exec_recordAll (vs : List Event) (r : Run) :
    (recordAll vs).exec r = (.ok (), { r with log := vs.reverse ++ r.log }) := by
  induction vs generalizing r with
  | nil => rfl
  | cons v vs ih =>
    show (record v >>= fun _ => recordAll vs).exec r = _
    rw [exec_bind_ok (exec_record v r), ih, List.reverse_cons, List.append_assoc]
    rfl

theorem exec_ofExcept (x : Except EvalError α) (r : Run) : (ofExcept x).exec r = (x, r) := by
  cases x <;> rfl

theorem exec_inScope (s : Scope) (a : Action α) (r : Run) :
    (inScope s a).exec r =
      ((a.exec { r with scope := s }).1,
        { (a.exec { r with scope := s }).2 with scope := r.scope }) := rfl

theorem exec_shielded (a : Action α) (r : Run) :
    (shielded a).exec r =
      ((a.exec { r with raised := false }).1,
        { (a.exec { r with raised := false }).2 with raised := r.raised }) := rfl

theorem exec_poll (r : Run) :
    poll.exec r =
      if r.raised then
        (.error .interrupted, { r with raised := false, log := .interruptSeen :: r.log })
      else (.ok (), r) := by
  obtain ⟨scope, raised, log⟩ := r
  cases raised <;> rfl

theorem exec_poll_raised (k : Unit → Action α) {r : Run} (h : r.raised = true) :
    (poll >>= k).exec r =
      (.error .interrupted, { r with raised := false, log := .interruptSeen :: r.log }) := by
  rw [exec_bind, exec_poll, if_pos h]

theorem exec_poll_calm (k : Unit → Action α) {r : Run} (h : r.raised = false) :
    (poll >>= k).exec r = (k ()).exec r := by
  have hcalm : ¬ r.raised = true := by simp [h]
  rw [exec_bind, exec_poll, if_neg hcalm]

end Action

/-! ## How an evaluation begins -/

/-- a pending interrupt ends an evaluation before anything is done -/
theorem exec_eval_raised (depth : Nat) (e : Expr) {r : Run} (h : r.raised = true) :
    (eval depth e).exec r =
      (.error .interrupted, { r with raised := false, log := .interruptSeen :: r.log }) := by
  cases depth with
  | zero => exact Action.exec_poll_raised _ h
  | succ depth => exact Action.exec_poll_raised _ h

theorem exec_eval_zero (e : Expr) {r : Run} (h : r.raised = false) :
    (eval 0 e).exec r = (.error .tooDeep, { r with log := .depthReached :: r.log }) :=
  Action.exec_poll_calm _ h

theorem exec_eval_succ (depth : Nat) (e : Expr) {r : Run} (h : r.raised = false) :
    (eval (depth + 1) e).exec r = (Eval.node (eval depth) (Eval.call (eval depth)) e).exec r :=
  Action.exec_poll_calm _ h

end ChartLisp
