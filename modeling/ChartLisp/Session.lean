import ChartLisp.Eval
import ChartLisp.Program

/-!
# Sessions

A session keeps definitions from one program to the next.  A program is parsed first and evaluated
then, as often as asked.

* `Signals`           interrupt flags; a handle is the place of one
* `Session`           root bindings, the last program if it parsed, the attached flag, the log
* `Session.parse`, `Session.parseBytes`, `Session.evaluate`, `Session.reset`
* `Session.attach`    replaces the attached flag by a new, lowered one
* `Session.handle`    the attached flag, a new one if there is none
* `runProgram`        one program in a fresh root
-/

namespace ChartLisp

abbrev Signals := List Bool

namespace Signals

abbrev Handle := Nat

def isRaised (s : Signals) (h : Handle) : Bool := s.getD h false

def raise (s : Signals) (h : Handle) : Signals := s.set h true

def lower (s : Signals) (h : Handle) : Signals := s.set h false

end Signals

structure Session where
  root : Bindings Expr
  program : Option Expr
  /-- the flag that evaluations look at -/
  attached : Option Signals.Handle
  signals : Signals
  /-- the log, the latest entry first -/
  log : List Event

def parseLogged (source : String) : Except ParseError Expr × List Event :=
  match Program.read source with
  | .ok e => (.ok e, [])
  | .error e => (.error e, [.parseFailed e])

namespace Session

def fresh : Session := ⟨Scope.baseline, none, none, [], []⟩

def scope (s : Session) : Scope := ⟨[], s.root⟩

/-- parses a program; the one before is gone even if this one is none -/
def parse (s : Session) (source : String) : Except ParseError Unit × Session :=
  match parseLogged source with
  | (.ok e, events) => (.ok (), { s with program := some e, log := events ++ s.log })
  | (.error e, events) => (.error e, { s with program := none, log := events ++ s.log })

def parseBytes (s : Session) (bytes : ByteArray) : Bool × Session :=
  match String.fromUTF8? bytes with
  | none => (false, { s with program := none })
  | some source =>
    match s.parse source with
    | (.ok _, s) => (true, s)
    | (.error _, s) => (false, s)

/-! ## Interrupts -/

def attach (s : Session) : Signals.Handle × Session :=
  let h := s.signals.length
  (h, { s with attached := some h, signals := s.signals ++ [false] })

def handle (s : Session) : Signals.Handle × Session :=
  match s.attached with
  | some h => (h, s)
  | none => s.attach

def raise (s : Session) (h : Signals.Handle) : Session :=
  { s with signals := s.signals.raise h }

def isRaised (s : Session) (h : Signals.Handle) : Bool := s.signals.isRaised h

/-- whether the flag was raised; it is lowered -/
def take (s : Session) (h : Signals.Handle) : Bool × Session :=
  (s.isRaised h, { s with signals := s.signals.lower h })

/-! ## Evaluation -/

def pending (s : Session) : Bool :=
  match s.attached with
  | some h => s.signals.isRaised h
  | none => false

def settle (s : Session) (r : Run) : Session :=
  { s with
    root := r.scope.root
    log := r.log
    -- a run that was interrupted has lowered the flag
    signals :=
      match s.attached with
      | some h => s.signals.set h r.raised
      | none => s.signals }

def evaluate (s : Session) : Except EvalError Expr × Session :=
  match s.program with
  | none => (.error .noProgram, s)
  | some e =>
    let (result, r) := (ChartLisp.evaluate e).exec ⟨s.scope, s.pending, s.log⟩
    match result with
    | .ok v => (.ok v, s.settle r)
    | .error err => (.error err, s.settle { r with log := .evaluationFailed err :: r.log })

def reset (s : Session) : Session :=
  { s with root := s.scope.reset.root, log := .resetting :: s.log }

end Session

/-! ## Single programs -/

inductive ProgramError where
  | parse (error : ParseError)
  | eval (error : EvalError)
deriving DecidableEq

/-- the value of a source in a fresh root, and the log, the latest entry first -/
def runProgram (source : String) : Except ProgramError Expr × List Event :=
  match parseLogged source with
  | (.error e, events) => (.error (.parse e), events)
  | (.ok e, events) =>
    match (evaluate e).exec ⟨Scope.fresh, false, events⟩ with
    | (.ok v, r) => (.ok v, r.log)
    | (.error err, r) => (.error (.eval err), r.log)

end ChartLisp
