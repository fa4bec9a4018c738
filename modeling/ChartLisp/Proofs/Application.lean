import ChartLisp.Proofs.DepthLimit

/-!
# Applying a procedure to the elements of a list

`(apply f (list e₁ … eₙ))` evaluates the arguments inside a list, one level deeper than
`(f e₁ … eₙ)` does, and finds `f` in another place.  Both find it after the arguments, which may
have defined it, and call it at the same depth.

* `Expr.call`                `(name e₁ … eₙ)`
* `Eval.applied`             finds the procedure of a name and applies it
* `Eval.node_call`, `Eval.node_list`   what an application does: its arguments, then `applied`
* `nameAndElements_agree`    the elements of a list are the values of the arguments
* `eval_apply_eq_call`       `apply` does what the application does
-/

namespace ChartLisp

open ChartLisp.Action (Sim Agree)

/-- `(name e₁ … eₙ)` -/
def Expr.call (name : String) (args : List Expr) : Expr := node (.symbol name) args

namespace Eval

variable {ev : Expr → Action Expr} {invoke : Invoke}

/-- finds the procedure of a name and applies it -/
def applied (invoke : Invoke) (name : String) (args : List Expr) : Action Expr := do
  invoke name (← procedureNamed name) args

theorem node_call {name : String} (hf : Form.ofName? name = none) {es : List Expr} (he : es ≠ []) :
    node ev invoke (Expr.call name es) = es.mapM ev >>= applied invoke name := by
  have hform : form? (Expr.call name es) = none := hf
  have hleaf : (Expr.call name es).isLeaf = false := by
    simpa [Expr.isLeaf, Expr.call, Expr.node] using he
  unfold node
  rw [hform, hleaf]
  rfl

/-- a list is an application even when it is empty -/
theorem node_list (es : List Expr) :
    node ev invoke (Expr.list es) = es.mapM ev >>= applied invoke Expr.listName := by
  have hform : form? (Expr.list es) = none := rfl
  have hlist : (Expr.list es).isList = true := rfl
  unfold node
  rw [hform, hlist, Bool.not_true, Bool.and_false]
  rfl

theorem exec_applied_list (vs : List Expr) (r : Run) :
    (applied (call ev) Expr.listName vs).exec r =
      (.ok (Expr.list vs), { r with log := .callingBuiltin Expr.listName vs.length :: r.log }) :=
  rfl

section
variable {e : Expr} {r r' : Run} (form : Form) (name : String)

theorem exec_nameAndElements_ok {vs : List Expr} (h : (ev e).exec r = (.ok (Expr.list vs), r')) :
    (nameAndElements ev form [Expr.symbol name, e]).exec r = (.ok (name, vs), r') := by
  show (ev e >>= _).exec r = _
  rw [Action.exec_bind_ok h]
  rfl

theorem exec_nameAndElements_error {err : EvalError} (h : (ev e).exec r = (.error err, r')) :
    (nameAndElements ev form [Expr.symbol name, e]).exec r = (.error err, r') := by
  show (ev e >>= _).exec r = _
  rw [Action.exec_bind, h]

end

end Eval

/-! ## The arguments, inside a list and by themselves -/

/-- a list evaluates its elements with one level less than is left for the list -/
theorem eval_list_agree (depth : Nat) (es : List Expr) {r : Run} (hr : r.raised = false) :
    Agree isTooDeep Eq (fun v vs => v = Expr.list vs) ((eval depth (Expr.list es)).exec r)
      ((es.mapM (eval depth)).exec r) := by
  cases depth with
  | zero =>
    rw [exec_eval_zero _ hr]
    exact .stopped rfl
  | succ depth =>
    have hargs : Sim isTooDeep Eq (List.Forall₂ Eq) (es.mapM (eval depth))
        (es.mapM (eval (depth + 1))) :=
      Sim.mapM (List.forall₂_refl es) (eval_depth_sim (Nat.le_succ depth))
    have hlist : ∀ vs vs' : List Expr, List.Forall₂ Eq vs vs' →
        Sim isTooDeep Eq (fun v vs => v = Expr.list vs)
          (Eval.applied (Eval.call (eval depth)) Expr.listName vs) (pure vs') := by
      intro vs vs' hvs t t' hl
      rw [List.forall₂_eq_eq_eq] at hvs
      subst hvs
      rw [Eval.exec_applied_list]
      exact .ok rfl ⟨hl.scope, hl.raised⟩
    rw [exec_eval_succ depth _ hr, Eval.node_list, ← bind_pure (es.mapM (eval (depth + 1)))]
    exact (hargs.bind hlist) r r ⟨rfl, rfl⟩

theorem nameAndElements_agree (depth : Nat) (form : Form) (name : String) (es : List Expr) {r : Run}
    (hr : r.raised = false) :
    Agree isTooDeep Eq (fun x vs => x = (name, vs))
      ((Eval.nameAndElements (eval depth) form [Expr.symbol name, Expr.list es]).exec r)
      ((es.mapM (eval depth)).exec r) := by
  have hagree := eval_list_agree depth es hr
  cases hx : (eval depth (Expr.list es)).exec r with
  | mk x r₁ =>
    rw [hx] at hagree
    generalize (es.mapM (eval depth)).exec r = y at hagree ⊢
    cases hagree with
    | stopped hs =>
      rw [Eval.exec_nameAndElements_error form name hx]
      exact .stopped hs
    | ok hv hl =>
      subst hv
      rw [Eval.exec_nameAndElements_ok form name hx]
      exact .ok rfl hl
    | error hl =>
      rw [Eval.exec_nameAndElements_error form name hx]
      exact .error hl

/-! ## `apply` -/

/-- applying a procedure of this scope does not depend on what went on before -/
theorem applied_sim {stop : EvalError → Prop} (depth : Nat) (name : String) (vs : List Expr) :
    Sim stop Eq Eq (Eval.applied (Eval.call (eval depth)) name vs)
      (Eval.applied (Eval.call (eval depth)) name vs) := by
  refine (equal_simulation.procedureNamed_sim name).bind fun p p' hp => ?_
  exact equal_simulation.call_sim (equal_simulation.eval_sim depth) name p p' vs vs hp
    (List.forall₂_refl vs)

theorem eval_apply_agree (depth : Nat) {name : String} (hf : Form.ofName? name = none)
    {es : List Expr} (he : es ≠ []) (r : Run) :
    Agree isTooDeep Eq Eq
      ((eval depth (Expr.call Form.apply.name [Expr.symbol name, Expr.list es])).exec r)
      ((eval depth (Expr.call name es)).exec r) := by
  cases hr : r.raised with
  | true =>
    rw [exec_eval_raised _ _ hr, exec_eval_raised _ _ hr]
    exact .error ⟨rfl, rfl⟩
  | false =>
    cases depth with
    | zero =>
      rw [exec_eval_zero _ hr]
      exact .stopped rfl
    | succ depth =>
      rw [exec_eval_succ depth _ hr, exec_eval_succ depth _ hr, Eval.node_call hf he]
      show Agree isTooDeep Eq Eq
        ((Eval.nameAndElements (eval depth) .apply [Expr.symbol name, Expr.list es] >>= fun x =>
          Eval.applied (Eval.call (eval depth)) x.1 x.2).exec r) _
      refine (nameAndElements_agree depth .apply name es hr).bind fun x vs hx => ?_
      subst hx
      exact applied_sim depth name vs

/-- `(apply f (list e₁ … eₙ))` is `(f e₁ … eₙ)`, whatever `f` names: the same value or the same
error, and the same definitions made on the way.  The first must not end at the depth limit, since
it evaluates the arguments one level deeper. -/
theorem eval_apply_eq_call (depth : Nat) {name : String} (hf : Form.ofName? name = none)
    {es : List Expr} (he : es ≠ []) (r : Run)
    (hne : ((eval depth (Expr.call "apply" [Expr.symbol name, Expr.list es])).exec r).1 ≠
      .error .tooDeep) :
    ((eval depth (Expr.call name es)).exec r).1 =
        ((eval depth (Expr.call "apply" [Expr.symbol name, Expr.list es])).exec r).1 ∧
      ((eval depth (Expr.call name es)).exec r).2.scope =
        ((eval depth (Expr.call "apply" [Expr.symbol name, Expr.list es])).exec r).2.scope :=
  (eval_apply_agree depth hf he r).eq_of_ne_tooDeep hne

/-- `(define f (lambda (x) (list x)))`, an argument that defines the procedure it is given to -/
def selfDefining : Expr :=
  Expr.call "define" [Expr.symbol "f",
    Expr.call "lambda" [Expr.symbol "x", Expr.list [Expr.symbol "x"]]]

theorem eval_apply_selfDefining :
    Form.ofName? "f" = none ∧
    ((eval depthLimit (Expr.call "f" [selfDefining])).exec (Run.start Scope.fresh)).1 =
      .ok (Expr.list [Eval.closure ["x"] (Expr.list [Expr.symbol "x"]) []]) ∧
    ((eval depthLimit (Expr.call "f" [selfDefining])).exec (Run.start Scope.fresh)).2.scope =
      ((eval depthLimit (Expr.call "apply" [Expr.symbol "f", Expr.list [selfDefining]])).exec
        (Run.start Scope.fresh)).2.scope := by
  have hf : Form.ofName? "f" = none := rfl
  have happly : ((eval depthLimit (Expr.call "apply"
      [Expr.symbol "f", Expr.list [selfDefining]])).exec (Run.start Scope.fresh)).1 =
        .ok (Expr.list [Eval.closure ["x"] (Expr.list [Expr.symbol "x"]) []]) := rfl
  have hne : ((eval depthLimit (Expr.call "apply"
      [Expr.symbol "f", Expr.list [selfDefining]])).exec (Run.start Scope.fresh)).1 ≠
        .error .tooDeep := by
    rw [happly]
    exact nofun
  have hargs : [selfDefining] ≠ [] := List.cons_ne_nil selfDefining []
  obtain ⟨hvalue, hscope⟩ := eval_apply_eq_call depthLimit hf hargs (Run.start Scope.fresh) hne
  exact ⟨hf, hvalue.trans happly, hscope⟩

end ChartLisp
