import ChartLisp.Builtin
import ChartLisp.Eval.Error
import ChartLisp.Expr
import ChartLisp.Form

/-!
# Scopes

Names are looked up in a chain of scopes: those of procedure calls, innermost first, and the root,
which holds the constants and the definitions of the session.

* `Scope`               such a chain
* `Scope.lookup`        the innermost value of a name
* `Scope.flattened`     everything bound above the root as one map, inner values hiding outer ones
* `Scope.define`        a definition: the name must have no value anywhere in the chain
* `Scope.bindArgument`  a parameter: the name must have no value in the innermost scope
* `requireUnreserved`   names of special forms and of built-in procedures are never bound
* `Scope.procedure`     what a name in the place of a procedure stands for
-/

namespace ChartLisp

def requireUnreserved (name : String) : Except EvalError Unit :=
  if (Form.ofName? name).isSome then .error (.reservedForm name)
  else if (Builtin.ofName? name).isSome then .error (.builtin name)
  else .ok ()

structure Scope where
  /-- scopes above the root, innermost first -/
  locals : List (Bindings Expr)
  root : Bindings Expr

namespace Scope

def baseline : Bindings Expr :=
  Bindings.ofList [("pi", Expr.number 3.141592653589793), ("e", Expr.number 2.718281828459045),
    ("I", Expr.complex Complex.unit)]

def fresh : Scope := ⟨[], baseline⟩

def child (s : Scope) (bindings : Bindings Expr) : Scope := { s with locals := bindings :: s.locals }

/-- without the innermost scope; the root stays -/
def parent (s : Scope) : Scope := { s with locals := s.locals.tail }

def atRoot (s : Scope) : Scope := { s with locals := [] }

def current (s : Scope) : Bindings Expr := s.locals.headD s.root

def modify (s : Scope) (f : Bindings Expr → Bindings Expr) : Scope :=
  match s.locals with
  | [] => { s with root := f s.root }
  | inner :: outer => { s with locals := f inner :: outer }

def lookup (s : Scope) (name : String) : Option Expr :=
  (s.locals.findSome? (Bindings.get? · name)).or (s.root.get? name)

/-- all bindings above the root, inner ones hiding outer ones -/
def flattened (s : Scope) : Bindings Expr := s.locals.foldr Bindings.overlay []

/-- drops what the innermost scope binds; a root keeps its constants -/
def reset (s : Scope) : Scope :=
  s.modify fun _ => if s.locals.isEmpty then baseline else []

/-! ## Binding -/

def requireUnbound (s : Scope) (name : String) : Except EvalError Unit := do
  requireUnreserved name
  if (s.lookup name).isSome then .error (.alreadyBound name)

/-- binds a name that has no value in the chain yet -/
def define (s : Scope) (name : String) (value : Expr) : Except EvalError Scope := do
  s.requireUnbound name
  return s.modify (Bindings.insert name value)

/-- binds a name that has no value in the innermost scope yet -/
def bindArgument (s : Scope) (name : String) (value : Expr) : Except EvalError Scope := do
  requireUnreserved name
  if s.current.contains name then .error (.alreadyBound name)
  else return s.modify (Bindings.insert name value)

end Scope

/-! ## Procedures -/

inductive Procedure where
  | builtin (b : Builtin)
  | closure (e : Expr)

/-- the procedure of a name: a built-in one, or a closure that is its value -/
def Scope.procedure (s : Scope) (name : String) : Except EvalError Procedure :=
  match Builtin.ofName? name with
  | some b => .ok (.builtin b)
  | none =>
    match s.lookup name with
    | some e => if e.isLambda then .ok (.closure e) else .error (.notProcedure name)
    | none => .error (.notProcedure name)

end ChartLisp
