import ChartLisp.Proofs.Interrupts

/-!
# Programs one by one, and all in one program

A session can be given expressions one after the other, or all of them at once under a `begin`.
Inside the `begin` each of them has one level less to nest in.  As long as that is enough, the two
ways lead to the same outcome and leave the same definitions.

* `Session.evaluateEach`            the expressions as programs of their own, up to a first failure
* `Session.load_evaluate`           one of them does what it does inside the `begin`
* `Session.evaluateEach_eq_begin`   all of them do what the `begin` does
-/

namespace ChartLisp

/-- the program of all the expressions in order -/
def Expr.sequence (e : Expr) (es : List Expr) : Expr :=
  node (.symbol Form.begin.name) (e :: es)

namespace Session

/-- the expression as the program to evaluate -/
def load (s : Session) (e : Expr) : Session := { s with program := some e }

/-- Evaluates `e` and the expressions behind it, each as a program of its own.  The first one that
fails is the last one that is evaluated. -/
def evaluateEach (s : Session) (e : Expr) : List Expr → Except EvalError Expr × Session
  | [] => (s.load e).evaluate
  | e' :: es =>
    match (s.load e).evaluate with
    | (.ok _, s') => s'.evaluateEach e' es
    | (.error err, s') => (.error err, s')

theorem evaluateEach_of_error {s s' : Session} {e : Expr} {err : EvalError}
    (h : (s.load e).evaluate = (.error err, s')) (es : List Expr) :
    s.evaluateEach e es = (.error err, s') := by
  cases es with
  | nil => exact h
  | cons e' es => rw [evaluateEach, h]

theorem evaluateEach_cons_of_ok {s s' : Session} {e : Expr} {v : Expr}
    (h : (s.load e).evaluate = (.ok v, s')) (e' : Expr) (es : List Expr) :
    s.evaluateEach e (e' :: es) = s'.evaluateEach e' es := by
  rw [evaluateEach, h]

/-! ## One of the expressions -/

/-- what a program leaves is the scope of the next one -/
theorem scope_of_evaluate {s : Session} {e : Expr} (hp : s.program = some e)
    (hs : s.pending = false) :
    s.evaluate.2.scope = ((ChartLisp.evaluate e).exec (Run.start s.scope)).2.scope := by
  have hlocals : ((ChartLisp.evaluate e).exec (Run.start s.scope)).2.scope.locals = [] :=
    (eval_grows depthLimit e (Run.start s.scope)).locals_eq_nil rfl
  rw [(evaluate_undisturbed hp hs).2]
  exact congrArg (Scope.mk · _) hlocals.symm

/-- A program of its own does what the same expression does with less room, in whatever state of
the log, unless that comes to the end of its room. -/
theorem load_evaluate {depth : Nat} (hd : depth ≤ depthLimit) {s : Session} (hs : s.pending = false)
    {r : Run} (hscope : r.scope = s.scope) (hr : r.raised = false) (e : Expr)
    (hne : ((eval depth e).exec r).1 ≠ .error .tooDeep) :
    (s.load e).evaluate.1 = ((eval depth e).exec r).1 ∧
      (s.load e).evaluate.2.scope = ((eval depth e).exec r).2.scope ∧
      (s.load e).evaluate.2.pending = false := by
  have hpending : (s.load e).pending = false := hs
  obtain ⟨hvalue, hleft⟩ := evaluate_undisturbed rfl hpending
  have hagree := eval_depth_sim hd e e rfl r (Run.start s.scope) ⟨hscope, hr⟩
  obtain ⟨hsame, hscope'⟩ := hagree.eq_of_ne_tooDeep hne
  refine ⟨hvalue.trans hsame, (scope_of_evaluate rfl hpending).trans hscope', ?_⟩
  rw [hleft]
  exact hs

/-! ## All of them -/

/-- the expressions of a `begin` and the programs of their own, from a session without a pending
interrupt and a run in the same scope -/
theorem evaluateEach_eq_begin_calm {depth : Nat} (hd : depth ≤ depthLimit) {s : Session}
    (hs : s.pending = false) {r : Run} (hscope : r.scope = s.scope) (hr : r.raised = false)
    (e : Expr) (es : List Expr)
    (hne : ((Eval.begin (eval depth) (e :: es)).exec r).1 ≠ .error .tooDeep) :
    (s.evaluateEach e es).1 = ((Eval.begin (eval depth) (e :: es)).exec r).1 ∧
      (s.evaluateEach e es).2.scope = ((Eval.begin (eval depth) (e :: es)).exec r).2.scope := by
  induction es generalizing s r e with
  | nil =>
    obtain ⟨hvalue, hleft, _⟩ := load_evaluate hd hs hscope hr e hne
    exact ⟨hvalue, hleft⟩
  | cons e' es ih =>
    have hbegin : Eval.begin (eval depth) (e :: e' :: es) =
        (eval depth e >>= fun _ => Eval.begin (eval depth) (e' :: es)) := rfl
    have hraised := ((eval_course depth e r).raised hr).1
    have hfirst := load_evaluate hd hs hscope hr e
    rw [hbegin, Action.exec_bind] at hne ⊢
    cases hx : (eval depth e).exec r with
    | mk x r' =>
      rw [hx] at hne hraised hfirst
      cases hy : (s.load e).evaluate with
      | mk y s' =>
        rw [hy] at hfirst
        cases x with
        | error err =>
          obtain ⟨rfl, hleft, _⟩ := hfirst hne
          rw [evaluateEach_of_error hy]
          exact ⟨rfl, hleft⟩
        | ok v =>
          obtain ⟨rfl, hleft, hcalm⟩ := hfirst nofun
          rw [evaluateEach_cons_of_ok hy]
          exact ih hcalm hleft.symm hraised e' hne

theorem exec_evaluate_sequence (e : Expr) (es : List Expr) (scope : Scope) :
    (ChartLisp.evaluate (Expr.sequence e es)).exec (Run.start scope) =
      (Eval.begin (eval (depthLimit - 1)) (e :: es)).exec (Run.start scope) := rfl

/-- The expressions evaluated one by one come to the value of the last of them or to the first
failure, with the definitions made up to there, as they do in one program.  The one program must
not end at the depth limit: there the others may have gone on. -/
theorem evaluateEach_eq_begin (s : Session) (e : Expr) (es : List Expr)
    (h : (s.load (Expr.sequence e es)).evaluate.1 ≠ .error .tooDeep) :
    (s.evaluateEach e es).1 = (s.load (Expr.sequence e es)).evaluate.1 ∧
      (s.evaluateEach e es).2.root = (s.load (Expr.sequence e es)).evaluate.2.root := by
  cases hs : s.pending with
  | true =>
    -- the interrupt stops both before anything is evaluated
    obtain ⟨_, _, _, _, hall⟩ := evaluate_pending (s := s.load (Expr.sequence e es)) rfl hs
    obtain ⟨_, _, _, _, hfirst⟩ := evaluate_pending (s := s.load e) rfl hs
    rw [evaluateEach_of_error hfirst, hall]
    exact ⟨rfl, rfl⟩
  | false =>
    have hcalm : (s.load (Expr.sequence e es)).pending = false := hs
    have hvalue := (evaluate_undisturbed rfl hcalm).1
    have hscope := scope_of_evaluate rfl hcalm
    rw [exec_evaluate_sequence] at hvalue hscope
    have hroom : depthLimit - 1 ≤ depthLimit := Nat.sub_le _ _
    obtain ⟨heach, hleft⟩ := evaluateEach_eq_begin_calm hroom hs rfl rfl e es (hvalue ▸ h)
    exact ⟨heach.trans hvalue.symm, congrArg Scope.root (hleft.trans hscope.symm)⟩

/-- `(define xs (list))`, then `(first xs)`, which fails, then `(define ys xs)` -/
theorem evaluateEach_failing :
    let xs := Expr.node (.symbol "define") [Expr.symbol "xs", Expr.list []]
    let es := [Expr.node (.symbol "first") [Expr.symbol "xs"],
      Expr.node (.symbol "define") [Expr.symbol "ys", Expr.symbol "xs"]]
    (fresh.load (Expr.sequence xs es)).evaluate.1 = .error (.unusable "first" .emptyList) ∧
      (fresh.evaluateEach xs es).1 = .error (.unusable "first" .emptyList) ∧
      (fresh.evaluateEach xs es).2.root = (fresh.load (Expr.sequence xs es)).evaluate.2.root := by
  intro xs es
  have hall : (fresh.load (Expr.sequence xs es)).evaluate.1 =
      .error (.unusable "first" .emptyList) := rfl
  obtain ⟨hvalue, hroot⟩ := evaluateEach_eq_begin fresh xs es (by rw [hall]; exact nofun)
  exact ⟨hall, hvalue.trans hall, hroot⟩

end Session

end ChartLisp
