import ChartLisp.Builtin.Call
import ChartLisp.Eval.Action

/-!
# Applying procedures

`ev` is the evaluation of an expression one level deeper; a closure's body is evaluated by it.

* `Closure.bindArguments`  the scope of a call: parameters bound to arguments, one by one
* `Eval.Invoke`            a way to apply procedures
* `Eval.callClosure`       calls a closure in that scope, over what it captured, over the root
* `Eval.call`              applies any procedure
-/

namespace ChartLisp

def Closure.bindArguments : List Expr → List Expr → Scope → Except EvalError Scope
  | p :: ps, a :: as, s => do
    match p.symbol? with
    | none => .error (.malformed Expr.lambdaName .parametersNotSymbols)
    | some name => bindArguments ps as (← s.bindArgument name a)
  | _, _, s => .ok s

/-- the scope that a closure's parameters are bound in: an empty one, over what the closure
captured, over the root of the caller -/
def Closure.scope (closure : Expr) (caller : Scope) : Scope := ⟨[[], closure.captured], caller.root⟩

namespace Eval

/-- a way to apply a procedure, under the name it is called by, to evaluated arguments -/
abbrev Invoke := String → Procedure → List Expr → Action Expr

/-- Calls a closure `(lambda (list p₁ … pₙ) body)` with `n` arguments.  Nothing local to the caller
is visible to the body, and nothing that the body defines outlives the call. -/
def callClosure (ev : Expr → Action Expr) (name : String) (closure : Expr) (args : List Expr) :
    Action Expr :=
  match closure.tail with
  | params :: body :: _ =>
    if params.tail.length ≠ args.length then throw (.argumentCount name)
    else do
      Action.record (.callingProcedure name args.length)
      let caller := (← get).scope
      let scope ← Action.ofExcept (Closure.bindArguments params.tail args (Closure.scope closure caller))
      Action.inScope scope (ev body)
  | _ => throw (.notProcedure name)

def callBuiltin (name : String) (b : Builtin) (args : List Expr) : Action Expr := do
  Action.record (.callingBuiltin name args.length)
  let value ← Action.ofExcept (b.call args)
  Action.recordAll (b.events args value)
  return value

def call (ev : Expr → Action Expr) : Invoke
  | name, .builtin b, args => callBuiltin name b args
  | name, .closure e, args => callClosure ev name e args

def procedureNamed (name : String) : Action Procedure := do
  Action.ofExcept ((← get).scope.procedure name)

end Eval

end ChartLisp
