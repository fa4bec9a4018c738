import ChartLisp.Eval.Procedure
import ChartLisp.Plot.Continuous

/-!
# Special forms

One function per form.  Each takes the evaluation `ev` of a child and the children of the form;
the forms that apply procedures take the way `invoke` to do so.

* `begin`, `define`, `lambda`     sequences, definitions and closures
* `apply`, `map`                  a named procedure on the elements of a list
* `setProperty`, `getProperty`    annotations
* `continuousPlot`                the plot of a procedure's values
-/

namespace ChartLisp.Eval

def wrongCount {α : Type} (form : Form) (expected : Nat) (children : List Expr) : Action α :=
  throw (.malformed form.name (.argumentCount expected children.length))

/-- `(begin e₁ … eₙ)`: all in order, the value of the last -/
def begin (ev : Expr → Action Expr) : List Expr → Action Expr
  | [] => throw (.malformed Form.begin.name .empty)
  | [e] => ev e
  | e :: es => do
    let _ ← ev e
    begin ev es

/-- `(define name e)`: the name is checked before `e` is evaluated and again when it is bound -/
def define (ev : Expr → Action Expr) : List Expr → Action Expr
  | [target, e] =>
    match target.symbol? with
    | none => throw (.malformed Form.define.name .firstNotSymbol)
    | some name => do
      Action.ofExcept ((← get).scope.requireUnbound name)
      let value ← ev e
      Action.record (.defining name value)
      -- the evaluation of `e` may have defined the name itself
      let scope ← Action.ofExcept ((← get).scope.define name value)
      modify fun r => { r with scope := scope }
      return value
  | children => wrongCount .define 2 children

/-- the names of parameters: symbols without children, not reserved, pairwise different -/
def parameterNames (seen : List String) : List Expr → Except EvalError (List String)
  | [] => .ok []
  | p :: ps => do
    match p.symbol? with
    | none => .error (.malformed Form.lambda.name (.parameterNotSymbol p.render))
    | some name =>
      requireUnreserved name
      if name ∈ seen then .error (.malformed Form.lambda.name (.duplicateParameter name))
      else return name :: (← parameterNames (name :: seen) ps)

/-- the parameters a list `(x y z)` declares: its head is the first of them -/
def declared (e : Expr) : List Expr := Expr.leaf e.head :: e.tail

/-- the closure of a procedure: its parameters as a list, its marked body, and what it captured -/
def closure (names : List String) (body : Expr) (captured : Bindings Expr) : Expr :=
  { head := .symbol Expr.lambdaName
    tail := [Expr.list (names.map Expr.symbol), { body with isBody := true }]
    properties := []
    captured := captured
    isBody := false }

/-- `(lambda (p₁ … pₙ) body)`: the closure, which captures every binding above the root -/
def lambda : List Expr → Action Expr
  | [params, body] => do
    let names ← Action.ofExcept (parameterNames [] (declared params))
    return closure names body (← get).scope.flattened
  | children => wrongCount .lambda 2 children

def nameAndElements (ev : Expr → Action Expr) (form : Form) :
    List Expr → Action (String × List Expr)
  | [target, e] =>
    match target.symbol? with
    | none => throw (.wrongType form.name .firstNotProcedure)
    | some name => do
      match (← ev e).elements? with
      | none => throw (.wrongType form.name .secondNotList)
      | some es => return (name, es)
  | _ => throw (.argumentCount form.name)

def apply (ev : Expr → Action Expr) (invoke : Invoke) (children : List Expr) : Action Expr := do
  let (name, es) ← nameAndElements ev .apply children
  invoke name (← procedureNamed name) es

def map (ev : Expr → Action Expr) (invoke : Invoke) (children : List Expr) : Action Expr := do
  let (name, es) ← nameAndElements ev .map children
  let p ← procedureNamed name
  return Expr.list (← es.mapM fun e => invoke name p [e])

def keyOf (form : Form) (e : Expr) : Except EvalError String :=
  match e.string? with
  | some key => .ok key
  | none => .error (.wrongType form.name .firstNotString)

/-- `(set-property key value target)`: the target, evaluated before the value, with a property -/
def setProperty (ev : Expr → Action Expr) : List Expr → Action Expr
  | [key, value, target] => do
    let key ← Action.ofExcept (keyOf .setProperty key)
    let target ← ev target
    let value ← ev value
    return target.setProperty key value
  | _ => throw (.argumentCount Form.setProperty.name)

def getProperty (ev : Expr → Action Expr) : List Expr → Action Expr
  | [key, target] => do
    let key ← Action.ofExcept (keyOf .getProperty key)
    return (← ev target).property key
  | _ => throw (.argumentCount Form.getProperty.name)

/-! ## Plots of functions -/

/-- what is plotted: the procedure of a name, found when the bounds are known, or a value that must
be a closure -/
inductive Target where
  | named (name : String)
  | value (e : Expr)

def target (ev : Expr → Action Expr) (e : Expr) : Action Target :=
  match e.symbol? with
  | some name => return .named name
  | none => return .value (← ev e)

def Target.procedure : Target → Action (String × Procedure)
  | .named name => return (name, ← procedureNamed name)
  | .value e =>
    if e.isLambda then return (Expr.lambdaName, .closure e)
    else throw (.wrongType Form.continuousPlot.name .firstNotProcedure)

def sampleValue (invoke : Invoke) (name : String) (p : Procedure) (x : Double) :
    Action Double := do
  -- an interrupt does not stop a plot half way
  let y ← Action.shielded (invoke name p [Expr.number x])
  match y.number? with
  | some v => return v
  | none => throw (.wrongType Form.continuousPlot.name (.sampledOther y.render))

/-- target, bounds and options are evaluated in this order, and then the procedure is found -/
def plotTarget (ev : Expr → Action Expr) (invoke : Invoke) (f bounds : Expr)
    (options : Option Expr) : Action Expr := do
  let t ← target ev f
  let bounds ← ev bounds
  let options ← match options with
    | some e => ev e
    | none => pure (Expr.list [])
  let (name, p) ← t.procedure
  Action.sampling (sampleValue invoke name p) (Plot.Continuous.plot bounds options)

def continuousPlot (ev : Expr → Action Expr) (invoke : Invoke) : List Expr → Action Expr
  | [f, bounds] => plotTarget ev invoke f bounds none
  | [f, bounds, options] => plotTarget ev invoke f bounds (some options)
  | _ => throw (.argumentCount Form.continuousPlot.name)

end ChartLisp.Eval
