import ChartLisp.Eval.Error
import ChartLisp.Expr
import ChartLisp.Program.Error

/-!
# The log

What happens on the way to an answer, as data: `Event.level` and `Event.message` give the entry a
log shows for it.
-/

namespace ChartLisp

inductive Event where
  | parseFailed (error : ParseError)
  | interruptSeen
  | depthReached
  | callingBuiltin (name : String) (count : Nat)
  | callingProcedure (name : String) (count : Nat)
  | defining (name : String) (value : Expr)
  | plottedPoints (points primitives : Nat)
  | sampled (points : Nat) (lower upper : Double)
  | refined (pass points : Nat)
  | evaluationFailed (error : EvalError)
  | resetting

inductive Level where
  | debug
  | trace
deriving DecidableEq

def Level.name : Level → String
  | .debug => "DEBUG"
  | .trace => "TRACE"

namespace Event

/-- calls of built-in procedures and the passes of a refinement are the detailed entries -/
def level : Event → Level
  | .callingBuiltin _ _ => .trace
  | .refined _ _ => .trace
  | _ => .debug

def message : Event → String
  | .parseFailed e => "parse failed: " ++ e.message
  | .interruptSeen => "interrupt observed, aborting evaluation"
  | .depthReached => "evaluation depth limit of " ++ toString depthLimit ++ " reached"
  | .callingBuiltin s n =>
    "calling built-in '" ++ s ++ "' with " ++ toString n ++ " argument(s)"
  | .callingProcedure s n =>
    "calling procedure '" ++ s ++ "' with " ++ toString n ++ " argument(s)"
  | .defining s v => "defining '" ++ s ++ "' as " ++ v.render
  | .plottedPoints n m =>
    "discrete-plot: " ++ toString n ++ " data points, " ++ toString m ++ " primitives"
  | .sampled n a b =>
    "continuous-plot: sampled " ++ toString n ++ " points over [" ++ a.text ++ ", " ++
      b.text ++ "]"
  | .refined p n =>
    "continuous-plot: refinement pass " ++ toString p ++ " left " ++ toString n ++ " points"
  | .evaluationFailed e => "evaluation failed: " ++ e.message
  | .resetting => "resetting environment"

end Event

end ChartLisp
