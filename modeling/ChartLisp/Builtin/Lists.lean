import ChartLisp.Builtin.Arguments

/-!
# List procedures

* `first`, `rest`, `length`, `append`, `join`  on canonical lists
* `range`      `begin`, `begin + step`, … while not past the end
* `ofCount`    a count as a number, refused where doubles no longer hold every whole number
-/

namespace ChartLisp.Lists

def uncons (procedure : String) (e : Expr) : Except EvalError (Expr × List Expr) := do
  match ← Argument.elements procedure e with
  | [] => .error (.unusable procedure .emptyList)
  | x :: xs => return (x, xs)

def first (args : List Expr) : Except EvalError Expr := do
  Argument.requireCount "first" 1 args
  return (← uncons "first" (← Argument.nth args 0)).1

def rest (args : List Expr) : Except EvalError Expr := do
  Argument.requireCount "rest" 1 args
  return Expr.list (← uncons "rest" (← Argument.nth args 0)).2

/-- the largest count up to which every whole number is a double -/
def maxCount : Nat := Nat.pow 2 53 - 1

def ofCount (procedure : String) (n : Nat) : Except EvalError Double :=
  if n ≤ maxCount then .ok (Double.ofNat n)
  else .error (.unusable procedure (.countTooLarge n))

def length (args : List Expr) : Except EvalError Expr := do
  Argument.requireCount "length" 1 args
  let es ← Argument.elements "length" (← Argument.nth args 0)
  return Expr.number (← ofCount "length" es.length)

/-- one more element at the end, a list counting as one element -/
def append (args : List Expr) : Except EvalError Expr := do
  Argument.requireCount "append" 2 args
  let es ← Argument.elements "append" (← Argument.nth args 0)
  return Expr.list (es ++ [← Argument.nth args 1])

def join (args : List Expr) : Except EvalError Expr := do
  Argument.requireCount "join" 2 args
  let xs ← Argument.elements "join" (← Argument.nth args 0)
  let ys ← Argument.elements "join" (← Argument.nth args 1)
  return Expr.list (xs ++ ys)

/-! ## Ranges -/

/-- The values from `v` on, at most `fuel` of them, that are not past `stop`; `seen` are the ones
before, the last one first.  Fails at a value that the step leaves where it is. -/
def iterate (stop step : Double) : Nat → Double → List Double → Except ArgumentFault (List Double)
  | 0, _, seen => .ok seen.reverse
  | fuel + 1, v, seen =>
    if v ≤ stop then
      if v + step == v then .error (.stepTooSmall step v)
      else iterate stop step fuel (v + step) (v :: seen)
    else .ok seen.reverse

/-- the values from `start` to `stop`; every step goes to a greater double, so there are no more of
them than doubles -/
def values (start stop step : Double) : Except ArgumentFault (List Double) :=
  if !start.isFinite || !stop.isFinite then .error .unboundedRange
  else if stop < start then .error (.reversedRange start stop)
  else if step ≤ 0 || step.isNaN then .error (.stepNotPositive step)
  else iterate stop step (stop.orderKey - start.orderKey + 1).toNat start []

def range (args : List Expr) : Except EvalError Expr := do
  Argument.requireCount "range" 3 args
  let start ← Argument.number "range" (← Argument.nth args 0)
  let stop ← Argument.number "range" (← Argument.nth args 1)
  let step ← Argument.number "range" (← Argument.nth args 2)
  match values start stop step with
  | .ok xs => return Expr.list (xs.map Expr.number)
  | .error fault => .error (.unusable "range" fault)

end ChartLisp.Lists
