import ChartLisp.Event
import ChartLisp.Plot.Sampling
import ChartLisp.Scope

/-!
# Actions

What an evaluation does besides giving a value: it may fail, define names, leave entries in a log,
and notice an interrupt.  What was done before a failure stays done.

* `Run`               the scope, the pending interrupt and the log of an evaluation
* `Action`            a step from one `Run` to the next
* `Action.poll`       fails if an interrupt is pending, which is then no longer pending
* `Action.inScope`    works in another scope and comes back
* `Action.shielded`   works without noticing an interrupt
* `Action.sampling`   answers the questions of a plot
-/

namespace ChartLisp

structure Run where
  scope : Scope
  raised : Bool
  /-- the log, the latest entry first -/
  log : List Event

def Run.start (scope : Scope) : Run := ⟨scope, false, []⟩

abbrev Action (α : Type) := ExceptT EvalError (StateM Run) α

namespace Action

variable {α : Type}

def exec (a : Action α) (r : Run) : Except EvalError α × Run := a.run r

def record (v : Event) : Action Unit := modify fun r => { r with log := v :: r.log }

def recordAll (vs : List Event) : Action Unit := vs.forM record

def ofExcept : Except EvalError α → Action α
  | .ok a => pure a
  | .error e => throw e

def poll : Action Unit := do
  if (← get).raised then
    modify fun r => { r with raised := false }
    record .interruptSeen
    throw .interrupted

/-- does the action in `scope` and drops what that becomes -/
def inScope (scope : Scope) (a : Action α) : Action α := fun r =>
  let (result, r') := a.exec { r with scope := scope }
  (result, { r' with scope := r.scope })

/-- does the action as if no interrupt could come -/
def shielded (a : Action α) : Action α := fun r =>
  let (result, r') := a.exec { r with raised := false }
  (result, { r' with raised := r.raised })

def sampling (f : Double → Action Double) : Plot.Sampling α → Action α
  | .done a => pure a
  | .fail e => throw e
  | .note v next => do
    record v
    sampling f next
  | .ask x next => do
    let y ← f x
    sampling f (next y)

end Action

end ChartLisp
