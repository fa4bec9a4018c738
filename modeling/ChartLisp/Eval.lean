import ChartLisp.Eval.Forms

/-!
# Evaluation

* `Eval.node`   one node, given the evaluation of its children and the application of procedures
* `eval`        evaluation with a limit on the nesting
* `evaluate`    evaluation with the full limit

The limit is the structural argument: an evaluation that may nest `d + 1` deep evaluates the
children of its node with `d`, and one that may not nest at all fails.
-/

namespace ChartLisp

namespace Eval

def atomValue : Atom → Action Expr
  | .symbol name => do
    match (← get).scope.lookup name with
    | some value => return value
    | none => throw (.unbound name)
  | a => return Expr.leaf a

/-- A procedure application.  The head must be a symbol; the arguments are evaluated before the
procedure is looked up. -/
def application (ev : Expr → Action Expr) (invoke : Invoke) (e : Expr) : Action Expr :=
  match e.head.symbol? with
  | none => throw (.notProcedure e.head.text)
  | some name => do
    let args ← e.tail.mapM ev
    invoke name (← procedureNamed name) args

def form? (e : Expr) : Option Form := e.head.symbol?.bind Form.ofName?

/-- One node.  `begin`, `define` and `lambda` without children are plain symbols; the other special
forms are special forms always. -/
def node (ev : Expr → Action Expr) (invoke : Invoke) (e : Expr) : Action Expr :=
  match form? e with
  | some .continuousPlot => continuousPlot ev invoke e.tail
  | some .map => map ev invoke e.tail
  | some .apply => apply ev invoke e.tail
  | some .setProperty => setProperty ev e.tail
  | some .getProperty => getProperty ev e.tail
  | form =>
    if e.isLeaf && !e.isList then atomValue e.head
    else
      match form with
      | some .begin => begin ev e.tail
      | some .define => define ev e.tail
      | some .lambda => lambda e.tail
      | _ => application ev invoke e

end Eval

def eval : Nat → Expr → Action Expr
  | 0, _ => do
    Action.poll
    Action.record .depthReached
    throw .tooDeep
  | depth + 1, e => do
    Action.poll
    Eval.node (eval depth) (Eval.call (eval depth)) e

def evaluate (e : Expr) : Action Expr := eval depthLimit e

end ChartLisp
