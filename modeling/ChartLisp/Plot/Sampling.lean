import ChartLisp.Event

/-!
# Computations that ask for values of a function

A plot of a function sees it only through its values.  `Sampling` is such a computation as a tree:
at each node it asks for one value and goes on with the answer.  What it asks next can depend on
the earlier answers and on nothing else.

* `Sampling`              a result, a failure, a log entry, or a question
* `Sampling.answerAfter`  runs it on a function that may fail and may remember what it was asked, and
                          keeps the questions in their order
* `Sampling.answer`       runs it on a function that has no memory
-/

namespace ChartLisp.Plot

inductive Sampling (α : Type) where
  | done (a : α)
  | fail (error : EvalError)
  | note (event : Event) (next : Sampling α)
  | ask (x : Double) (next : Double → Sampling α)

namespace Sampling

variable {α β : Type}

protected def bind : Sampling α → (α → Sampling β) → Sampling β
  | .done a, k => k a
  | .fail e, _ => .fail e
  | .note v next, k => .note v (next.bind k)
  | .ask x next, k => .ask x fun y => (next y).bind k

instance : Monad Sampling where
  pure := .done
  bind := Sampling.bind

protected theorem bind_assoc {γ : Type} (s : Sampling α) (k : α → Sampling β)
    (l : β → Sampling γ) : (s.bind k).bind l = s.bind fun a => (k a).bind l := by
  induction s with
  | done a => rfl
  | fail e => rfl
  | note v next ih => exact congrArg (Sampling.note v) ih
  | ask x next ih => exact congrArg (Sampling.ask x) (funext ih)

protected theorem bind_done (s : Sampling α) : s.bind .done = s := by
  induction s with
  | done a => rfl
  | fail e => rfl
  | note v next ih => exact congrArg (Sampling.note v) ih
  | ask x next ih => exact congrArg (Sampling.ask x) (funext ih)

instance : LawfulMonad Sampling :=
  LawfulMonad.mk' Sampling (fun s => Sampling.bind_done s) (fun _ _ => rfl)
    (fun s k l => Sampling.bind_assoc s k l)

def ofExcept : Except EvalError α → Sampling α
  | .ok a => .done a
  | .error e => .fail e

def value (x : Double) : Sampling Double := .ask x .done

def record (v : Event) : Sampling Unit := .note v (.done ())

structure Answer (α : Type) where
  outcome : Except EvalError α
  asked : List Double
  log : List Event

/-- Runs the sampling on `f`, a function that may remember the questions put to it before.  The run
ends with the first question that `f` fails on. -/
def answerAfter (f : List Double → Double → Except EvalError Double) (earlier : List Double) :
    Sampling α → Answer α
  | .done a => ⟨.ok a, [], []⟩
  | .fail e => ⟨.error e, [], []⟩
  | .note v next => let r := answerAfter f earlier next; { r with log := v :: r.log }
  | .ask x next =>
    match f earlier x with
    | .ok y =>
      let r := answerAfter f (earlier ++ [x]) (next y)
      { r with asked := x :: r.asked }
    | .error e => ⟨.error e, [x], []⟩

def answer (f : Double → Except EvalError Double) (s : Sampling α) : Answer α :=
  s.answerAfter (fun _ => f) []

end Sampling

end ChartLisp.Plot
