import ChartLisp.Eval.Error
import ChartLisp.Expr

/-!
# Reading arguments

* `requireCount`, `nth`   the check of the number of arguments, and the argument at a place, which
                          has to be there
* `number`, `complex`, `elements`   the readers: each names the procedure that asks, and shows the
                          argument it refuses
-/

namespace ChartLisp.Argument

def requireCount (procedure : String) (count : Nat) (args : List Expr) : Except EvalError Unit :=
  if args.length = count then .ok () else .error (.argumentCount procedure)

def nth (args : List Expr) (i : Nat) : Except EvalError Expr :=
  match args[i]? with
  | some e => .ok e
  | none => .error (.outOfBounds args.length i)

def number (procedure : String) (e : Expr) : Except EvalError Double :=
  match e.number? with
  | some x => .ok x
  | none => .error (.wrongType procedure (.notNumber e.render))

def complex (procedure : String) (e : Expr) : Except EvalError Complex :=
  match e.complex? with
  | some z => .ok z
  | none => .error (.wrongType procedure (.notComplex e.render))

def elements (procedure : String) (e : Expr) : Except EvalError (List Expr) :=
  match e.elements? with
  | some es => .ok es
  | none => .error (.wrongType procedure (.notList e.render))

end ChartLisp.Argument
