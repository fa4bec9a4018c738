import ChartLisp.Proofs.SessionRun

/-!
# Single assignment, and the footprint of an evaluation

* `Footprint e s u`       `u` has every binding of `s`, and new ones only in the innermost scope,
                          under names that `e` defines and that had no value and no fixed meaning
* `eval_footprint`        every evaluation stays in the footprint of its expression; procedure
                          calls, expressions without definitions and sessions follow
-/

namespace ChartLisp

/-- what evaluating `e` in `s` may have made of it -/
structure Footprint (e : Expr) (s u : Scope) : Prop where
  kept (name : String) (v : Expr) : s.current.get? name = some v → u.current.get? name = some v
  enclosing : u.enclosing = s.enclosing
  fresh (name : String) (v : Expr) : s.current.get? name = none → u.current.get? name = some v →
    e.Defines name ∧ s.lookup name = none ∧ Form.ofName? name = none ∧ Builtin.ofName? name = none

theorem Footprint.of_grows {e : Expr} {s u : Scope} (h : s.Grows e.Defines u) :
    Footprint e s u where
  kept _ _ hs := h.current hs
  enclosing := h.enclosing
  fresh _ _ hs hu := h.fresh hs hu

/-- an action that defines nothing leaves its scope as it was -/
theorem Action.Grows.scope_eq {α : Type} {a : Action α} (h : Action.Grows (fun _ => False) a)
    (r : Run) : (a.exec r).2.scope = r.scope :=
  (h r).eq_of_empty fun _ h => h

/-- a definition made in a session has its value until the session is reset -/
theorem Session.lookup_run {ops : List Session.Op} (h : Session.Op.reset ∉ ops) {s : Session}
    {name : String} {v : Expr} (hv : s.scope.lookup name = some v) :
    (s.run ops).scope.lookup name = some v := by
  refine Session.run_induction (I := fun s => s.scope.lookup name = some v) hv fun s op hop hv => ?_
  rcases s.perform_root_cases op with hroot | ⟨e, hroot⟩ | ⟨rfl, _⟩
  · show Scope.lookup ⟨[], (s.perform op).root⟩ name = some v
    rw [hroot]
    exact hv
  · show Scope.lookup ⟨[], (s.perform op).root⟩ name = some v
    rw [hroot, ← s.evaluate_scope e]
    exact (eval_grows depthLimit e s.start).lookup hv
  · exact absurd hop h

/-- Every evaluation, whether it succeeds or fails, keeps every binding of its scope and all
enclosing scopes, and adds only bindings of names that its expression defines, that had no value
before and that have no fixed meaning.  So calls leave the scope of the caller alone, one by one, in
sequence and in a plot, an expression that defines nothing changes nothing, and until a reset every
value stays. -/
theorem eval_footprint :
    (∀ depth e (r : Run), Footprint e r.scope ((eval depth e).exec r).2.scope) ∧
    (∀ depth name p args (r : Run),
      ((Eval.call (eval depth) name p args).exec r).2.scope = r.scope) ∧
    (∀ depth name p (es : List Expr) (r : Run),
      ((es.mapM fun e => Eval.call (eval depth) name p [e]).exec r).2.scope = r.scope) ∧
    (∀ depth name p (plot : Plot.Sampling Expr) (r : Run),
      ((Action.sampling (Eval.sampleValue (Eval.call (eval depth)) name p) plot).exec r).2.scope =
        r.scope) ∧
    (∀ depth e (r : Run), (∀ name, ¬ e.Defines name) → ((eval depth e).exec r).2.scope = r.scope) ∧
    (∀ (s : Session) ops, Session.Op.reset ∉ ops → ∀ name v,
      s.scope.lookup name = some v → (s.run ops).scope.lookup name = some v) := by
  have hcall : ∀ depth name p args,
      Action.Grows (fun _ => False) (Eval.call (eval depth) name p args) := fun depth name p args =>
    Eval.call_grows (eval depth) name p args
  refine ⟨?_, ?_, ?_, ?_, ?_, ?_⟩
  · intro depth e r
    exact Footprint.of_grows (eval_grows depth e r)
  · intro depth name p args r
    exact (hcall depth name p args).scope_eq r
  · intro depth name p es r
    exact (Action.Grows.mapM fun e _ => hcall depth name p [e]).scope_eq r
  · intro depth name p plot r
    exact (Action.Grows.sampling plot (Eval.sampleValue_grows (hcall depth) name p)).scope_eq r
  · intro depth e r he
    exact (eval_grows depth e r).eq_of_empty he
  · intro s ops hops name v hv
    exact Session.lookup_run hops hv

end ChartLisp
