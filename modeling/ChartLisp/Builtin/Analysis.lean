import ChartLisp.Builtin.Arguments

/-!
# Functions of one number, and the parts of a complex number

`ln`, `sin`, `cos` and `tan` take a number and refuse complex ones; `real`, `imag`, `mag`, `arg` and
`conj` take a complex number and refuse plain ones.
-/

namespace ChartLisp.Analysis

def ofNumber (procedure : String) (f : Double → Double) (args : List Expr) :
    Except EvalError Expr := do
  Argument.requireCount procedure 1 args
  return Expr.number (f (← Argument.number procedure (← Argument.nth args 0)))

def sin : List Expr → Except EvalError Expr := ofNumber "sin" Double.sin

def cos : List Expr → Except EvalError Expr := ofNumber "cos" Double.cos

def tan : List Expr → Except EvalError Expr := ofNumber "tan" Double.tan

/-- the natural logarithm; that of zero is minus infinity, and a negative number has none -/
def logarithm (args : List Expr) : Except EvalError Expr := do
  Argument.requireCount "ln" 1 args
  let x ← Argument.number "ln" (← Argument.nth args 0)
  if x < 0 then .error (.unusable "ln" (.negative x))
  else return Expr.number x.log

def ofComplex (procedure : String) (f : Complex → Expr) (args : List Expr) :
    Except EvalError Expr := do
  Argument.requireCount procedure 1 args
  return f (← Argument.complex procedure (← Argument.nth args 0))

def real : List Expr → Except EvalError Expr := ofComplex "real" fun z => Expr.number z.re

def imag : List Expr → Except EvalError Expr := ofComplex "imag" fun z => Expr.number z.im

def mag : List Expr → Except EvalError Expr := ofComplex "mag" fun z => Expr.number z.abs

def arg : List Expr → Except EvalError Expr := ofComplex "arg" fun z => Expr.number z.arg

def conj : List Expr → Except EvalError Expr := ofComplex "conj" fun z => Expr.complex z.conj

end ChartLisp.Analysis
