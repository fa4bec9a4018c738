import ChartLisp.Builtin.Arguments

/-!
# Arithmetic procedures

`+`, `-`, `*`, `/`, `^` and `sqrt` work on numbers and on complex numbers.  An operation on two
numbers stays with numbers; as soon as one operand is complex the other one is promoted.

* `Scalar`          a number or a complex number
* `Scalar.lift2`  one operation on two operands
* `Arithmetic.sum`, `Arithmetic.product`  left folds from `0` and `1` over any number of arguments
-/

namespace ChartLisp

inductive Scalar where
  | real (x : Double)
  | complex (z : Complex)
deriving DecidableEq

namespace Scalar

def read (procedure : String) (e : Expr) : Except EvalError Scalar :=
  match e.number?, e.complex? with
  | some x, _ => .ok (.real x)
  | none, some z => .ok (.complex z)
  | none, none => .error (.wrongType procedure (.notNumeric e.render))

def promote : Scalar → Complex
  | .real x => Complex.ofReal x
  | .complex z => z

def toExpr : Scalar → Expr
  | .real x => Expr.number x
  | .complex z => Expr.complex z

/-- `onReals` if both operands are numbers, else `onComplex` with both promoted -/
def lift2 (onReals : Double → Double → Double) (onComplex : Complex → Complex → Complex) :
    Scalar → Scalar → Scalar
  | .real x, .real y => .real (onReals x y)
  | a, b => .complex (onComplex a.promote b.promote)

end Scalar

namespace Arithmetic

def step (procedure : String) (onReals : Double → Double → Double)
    (onComplex : Complex → Complex → Complex) (acc : Scalar) (e : Expr) :
    Except EvalError Scalar := do
  return Scalar.lift2 onReals onComplex acc (← Scalar.read procedure e)

def fold (procedure : String) (init : Double) (onReals : Double → Double → Double)
    (onComplex : Complex → Complex → Complex) (args : List Expr) : Except EvalError Expr := do
  return (← args.foldlM (step procedure onReals onComplex) (.real init)).toExpr

def binary (procedure : String) (onReals : Double → Double → Double)
    (onComplex : Complex → Complex → Complex) (a b : Expr) : Except EvalError Expr := do
  let x ← Scalar.read procedure a
  let y ← Scalar.read procedure b
  return (Scalar.lift2 onReals onComplex x y).toExpr

def sum (args : List Expr) : Except EvalError Expr :=
  fold "+" 0 (· + ·) (· + ·) args

def product (args : List Expr) : Except EvalError Expr :=
  fold "*" 1 (· * ·) (· * ·) args

/-- a single argument is subtracted from zero -/
def difference : List Expr → Except EvalError Expr
  | [e] => binary "-" (· - ·) (· - ·) (Expr.number 0) e
  | [a, b] => binary "-" (· - ·) (· - ·) a b
  | _ => .error (.argumentCount "-")

/-- a single argument divides one -/
def quotient : List Expr → Except EvalError Expr
  | [e] => binary "/" (· / ·) (· / ·) (Expr.number 1) e
  | [a, b] => binary "/" (· / ·) (· / ·) a b
  | _ => .error (.argumentCount "/")

def power : List Expr → Except EvalError Expr
  | [a, b] => binary "^" Double.pow Complex.pow a b
  | _ => .error (.argumentCount "^")

/-- the root of a number that is not at least zero is imaginary -/
def rootOf : Scalar → Scalar
  | .real x => if 0 ≤ x then .real x.sqrt else .complex ⟨0, (-x).sqrt⟩
  | .complex z => .complex z.sqrt

def root : List Expr → Except EvalError Expr
  | [e] => do return (rootOf (← Scalar.read "sqrt" e)).toExpr
  | _ => .error (.argumentCount "sqrt")

end Arithmetic

end ChartLisp
