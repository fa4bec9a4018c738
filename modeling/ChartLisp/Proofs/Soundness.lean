import ChartLisp.Proofs.SessionRun
import ChartLisp.Proofs.Simulation.Invariant
import ChartLisp.Proofs.WellFormed

/-!
# Sessions compute well-formed values

Evaluation keeps scopes well-formed and gives well-formed values.  Calls of well-formed closures
always reach the body: what stands in the branches for malformed ones does not matter.

* `wellFormed_invariant`    being well-formed is an invariant of evaluation
* `Eval.callOr stuck`       calls that do `stuck` where a closure turns out to be malformed
* `session_sound`           what holds at every point of a session
-/

namespace ChartLisp

theorem Eval.closure_wellFormed {params : Expr} {names : List String} (body : Expr)
    {captured : Bindings Expr} (hn : Eval.parameterNames [] (Eval.declared params) = .ok names)
    (hc : captured.WellFormed) : (Eval.closure names body captured).WellFormed := by
  obtain ⟨hmap, hnd, hall⟩ := Eval.parameterNames_eq_ok hn
  have hne : names ≠ [] := by
    rintro rfl
    cases hmap
  exact .closure hne hnd (fun n h => (hall n h).1) (fun p h => (hc p h).1) (fun p h => (hc p h).2)
    (List.forall_mem_nil _)

theorem wellFormed_invariant :
    Invariant (fun _ => True) Expr.WellFormed Scope.WellFormed where
  tail _ _ _ := trivial
  atom _ ha := .leaf ha
  list hall := .ofList hall
  elements hw he := hw.elements he
  setProperty key ht hv := ht.setProperty hv key
  property key _ _ ht := ht.property key
  lookup hs hv := (hs.lookup hv).2
  define hs hb hv := hs.insert hb hv
  lambda _ _ hs _ hn := Eval.closure_wellFormed _ hn hs.flattened
  code _ _ _ := trivial
  enter hs hc hl hm := by
    obtain ⟨_, _, _, _, _, hcaptured⟩ := hc.of_isLambda hl
    refine ⟨fun b hb => ?_, hs.root⟩
    rcases List.mem_pair.mp hb with rfl | rfl
    · exact hm
    · exact hcaptured

theorem eval_wellFormed {r : Run} (h : r.scope.WellFormed) (depth : Nat) (e : Expr) :
    (∀ v, ((eval depth e).exec r).1 = .ok v → v.WellFormed) ∧
      ((eval depth e).exec r).2.scope.WellFormed :=
  wellFormed_invariant.preserved trivial h depth

/-! ## Calls always reach the body -/

namespace Eval

/-- evaluates a body in the scope of its call, if there is one -/
def enterOr (stuck : EvalError → Action Expr) (ev : Expr → Action Expr) (body : Expr) :
    Except EvalError Scope → Action Expr
  | .ok scope => Action.inScope scope (ev body)
  | .error e => stuck e

/-- `callClosure` with `stuck` in place of the errors that a malformed closure leads to -/
def callClosureOr (stuck : EvalError → Action Expr) (ev : Expr → Action Expr) (name : String)
    (closure : Expr) (args : List Expr) : Action Expr :=
  match closure.tail with
  | params :: body :: _ =>
    if params.tail.length ≠ args.length then throw (.argumentCount name)
    else do
      Action.record (.callingProcedure name args.length)
      let caller := (← get).scope
      enterOr stuck ev body
        (Closure.bindArguments params.tail args (Closure.scope closure caller))
  | _ => stuck (.notProcedure name)

/-- `call` with `stuck` in place of those errors -/
def callOr (stuck : EvalError → Action Expr) (ev : Expr → Action Expr) : Invoke
  | name, .builtin b, args => callBuiltin name b args
  | name, .closure e, args => callClosureOr stuck ev name e args

theorem enterOr_throw (ev : Expr → Action Expr) (body : Expr) (x : Except EvalError Scope) :
    enterOr throw ev body x =
      (Action.ofExcept x >>= fun scope => Action.inScope scope (ev body)) := by
  cases x <;> rfl

theorem callClosureOr_throw (ev : Expr → Action Expr) (name : String) (c : Expr)
    (args : List Expr) : callClosureOr throw ev name c args = callClosure ev name c args := by
  obtain ⟨head, tail, props, captured, isBody⟩ := c
  match tail with
  | [] => rfl
  | [_] => rfl
  | params :: body :: _ =>
    show (if params.tail.length ≠ args.length then _ else _) =
      if params.tail.length ≠ args.length then _ else _
    by_cases hn : params.tail.length ≠ args.length
    · rw [if_pos hn, if_pos hn]
    · rw [if_neg hn, if_neg hn]
      refine congrArg _ (funext fun _ => congrArg _ (funext fun r => ?_))
      exact enterOr_throw ev body _

/-- nothing is `stuck` in a call of a well-formed closure -/
theorem callClosureOr_of_wellFormed (stuck stuck' : EvalError → Action Expr)
    (ev : Expr → Action Expr) (name : String) {c : Expr} (h : c.WellFormed)
    (hl : c.isLambda = true) (args : List Expr) :
    callClosureOr stuck ev name c args = callClosureOr stuck' ev name c args := by
  obtain ⟨names, body, ht, hnd, hb, _⟩ := h.of_isLambda hl
  have htail : (Expr.list (names.map Expr.symbol)).tail = names.map Expr.symbol := rfl
  unfold callClosureOr Closure.scope
  rw [ht]
  simp only [htail, List.length_map]
  by_cases hlen : names.length = args.length
  · have hbind : ∀ root, ∃ u, Closure.bindArguments (names.map Expr.symbol) args
        ⟨[[], c.captured], root⟩ = .ok u := fun root =>
      ⟨_, Closure.bindArguments_eq_ok (s := ⟨[c.captured], root⟩) hlen hb hnd fun _ _ => rfl⟩
    choose u hu using hbind
    simp only [hu, enterOr]
  · rw [if_pos hlen, if_pos hlen]

end Eval

/-- evaluation from a well-formed scope comes to the same end whatever calls do when they are
stuck -/
theorem evalWith_callOr {r : Run} (h : r.scope.WellFormed) (stuck : EvalError → Action Expr)
    (depth : Nat) (e : Expr) :
    ((evalWith (Eval.callOr stuck) depth e).exec r).1 = ((eval depth e).exec r).1 ∧
      ((evalWith (Eval.callOr stuck) depth e).exec r).2.scope =
        ((eval depth e).exec r).2.scope := by
  have hbuiltin : ∀ ev name b args,
      Eval.callOr stuck ev name (.builtin b) args = Eval.callBuiltin name b args :=
    fun _ _ _ _ => rfl
  refine wellFormed_invariant.evalWith_eq hbuiltin (fun ev name c args hc hl => ?_) trivial h depth
  -- the closure is well-formed, so `throw` can stand for `stuck`
  show Eval.callClosureOr stuck ev name c args = _
  rw [Eval.callClosureOr_of_wellFormed stuck throw ev name hc hl args, Eval.callClosureOr_throw]

/-! ## Sessions -/

theorem Scope.fresh_wellFormed : Scope.fresh.WellFormed := by
  refine ⟨List.forall_mem_nil _, ?_⟩
  have hempty : Bindings.WellFormed [] := List.forall_mem_nil _
  have hpi := hempty.insert (show Bindable "pi" from ⟨rfl, rfl⟩) (.number 3.141592653589793)
  have he := hpi.insert (show Bindable "e" from ⟨rfl, rfl⟩) (.number 2.718281828459045)
  exact he.insert (show Bindable "I" from ⟨rfl, rfl⟩) (.complex Complex.unit)

namespace Session

/-- every definition is well-formed, and no constant is lost -/
theorem scope_run (ops : List Op) :
    (fresh.run ops).scope.WellFormed ∧
      ∀ name v, Scope.fresh.lookup name = some v →
        (fresh.run ops).scope.lookup name = some v := by
  refine run_induction (I := fun s => s.scope.WellFormed ∧
    ∀ name v, Scope.fresh.lookup name = some v → s.scope.lookup name = some v)
    ⟨Scope.fresh_wellFormed, fun _ _ h => h⟩ fun s op _ hs => ?_
  obtain ⟨hwf, hconst⟩ := hs
  have hscope : (s.perform op).scope = ⟨[], (s.perform op).root⟩ := rfl
  rw [hscope]
  rcases s.perform_root_cases op with hroot | ⟨e, hroot⟩ | ⟨_, hroot⟩
  · rw [hroot]
    exact ⟨hwf, hconst⟩
  · rw [hroot, ← s.evaluate_scope e]
    refine ⟨(eval_wellFormed hwf depthLimit e).2, fun name v hv => ?_⟩
    exact (eval_grows depthLimit e s.start).lookup (hconst name v hv)
  · rw [hroot]
    exact ⟨Scope.fresh_wellFormed, fun _ _ h => h⟩

/-- what holds of a session at every point of its life -/
structure Sound (s : Session) : Prop where
  /-- what the program evaluates to is well-formed -/
  value {v : Expr} : s.evaluate.1 = .ok v → v.WellFormed
  /-- what is defined is well-formed, and its name has no fixed meaning -/
  definition {name : String} {v : Expr} : (name, v) ∈ s.root →
    v.WellFormed ∧ Form.ofName? name = none ∧ Builtin.ofName? name = none
  pi : s.scope.lookup "pi" = some (Expr.number 3.141592653589793)
  e : s.scope.lookup "e" = some (Expr.number 2.718281828459045)
  unit : s.scope.lookup "I" = some (Expr.complex Complex.unit)
  /-- no name stands for a built-in procedure and for a closure -/
  procedure (name : String) :
    ¬ ((Builtin.ofName? name).isSome = true ∧
      ∃ v, s.scope.lookup name = some v ∧ v.isLambda = true)
  /-- no call gets stuck on a malformed closure: it does not matter what would happen then -/
  entered {e : Expr} (stuck : EvalError → Action Expr) : s.program = some e →
    ((evalWith (Eval.callOr stuck) depthLimit e).exec s.start).1 = s.evaluate.1 ∧
      ((evalWith (Eval.callOr stuck) depthLimit e).exec s.start).2.scope.root = s.evaluate.2.root

end Session

/-- Whatever programs a session parses and evaluates, with whatever outcome, and however often it is
reset: values and definitions are well-formed, the constants keep their values, names with a fixed
meaning are never bound, and every call of a closure reaches its body. -/
theorem session_sound (ops : List Session.Op) : (Session.fresh.run ops).Sound := by
  obtain ⟨hwf, hconst⟩ := Session.scope_run ops
  generalize Session.fresh.run ops = s at hwf hconst
  refine ⟨?_, ?_, hconst _ _ rfl, hconst _ _ rfl, hconst _ _ rfl, ?_, ?_⟩
  · intro v hv
    cases hp : s.program with
    | none =>
      unfold Session.evaluate at hv
      rw [hp] at hv
      cases hv
    | some e =>
      rw [(Session.evaluate_of_program hp).1] at hv
      exact (eval_wellFormed hwf depthLimit e).1 v hv
  · intro name v hv
    exact ⟨(hwf.root _ hv).2, (hwf.root _ hv).1⟩
  · rintro name ⟨hb, v, hv, _⟩
    rw [(hwf.lookup hv).1.2] at hb
    cases hb
  · intro e stuck hp
    obtain ⟨hout, hscope⟩ := evalWith_callOr (r := s.start) hwf stuck depthLimit e
    obtain ⟨hvalue, hroot⟩ := Session.evaluate_of_program hp
    rw [hvalue, hroot, hout, hscope]
    exact ⟨rfl, rfl⟩

end ChartLisp
