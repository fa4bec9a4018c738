import ChartLisp.Proofs.Closure
import ChartLisp.Proofs.Simulation.Eval

/-!
# What a closure captures is all that its body sees

A closure keeps the flattened view of the scopes it was built in, and not the scopes.  Its calls
evaluate the body in two scopes over the root: the arguments, and that view.  No expression can
tell these two from the scopes of the closure's birth with the arguments on top.

* `SameView`              scope chains with the same root contents and the same flattened view
* `sameView_simulation`   evaluation in such chains gives the same, and ends in such chains again
* `callClosure_eq_eval_body`  a call gives what the body gives where the closure was built
-/

namespace ChartLisp

open ChartLisp.Action (Sim Linked)

/-- chains that differ at most in how their inner scopes are layered -/
structure SameView (s s' : Scope) : Prop where
  root (name : String) : s.root.get? name = s'.root.get? name
  flattened : s.flattened = s'.flattened
  atRoot : s.locals = [] ↔ s'.locals = []

namespace SameView

variable {s s' : Scope}

theorem lookup (h : SameView s s') (name : String) : s.lookup name = s'.lookup name := by
  rw [Scope.lookup_eq, Scope.lookup_eq, h.flattened, h.root name]

/-- a definition goes into the innermost scopes, which are both the root or both not -/
theorem insert (h : SameView s s') (name : String) (v : Expr) :
    SameView (s.modify (Bindings.insert name v)) (s'.modify (Bindings.insert name v)) := by
  have hat : (s.modify (Bindings.insert name v)).locals = [] ↔
      (s'.modify (Bindings.insert name v)).locals = [] := by
    rw [Scope.modify_locals_eq_nil, Scope.modify_locals_eq_nil]
    exact h.atRoot
  by_cases hs : s.locals = []
  · have hs' := h.atRoot.mp hs
    obtain ⟨locals, root⟩ := s
    obtain ⟨locals', root'⟩ := s'
    simp only at hs hs'
    subst hs hs'
    refine ⟨fun n => ?_, rfl, hat⟩
    show Bindings.get? (Bindings.insert name v root) n =
      Bindings.get? (Bindings.insert name v root') n
    rw [Bindings.get?_insert, Bindings.get?_insert, h.root n]
  · have hs' : s'.locals ≠ [] := fun h' => hs (h.atRoot.mpr h')
    refine ⟨fun n => ?_, ?_, hat⟩
    · rw [Scope.modify_root hs, Scope.modify_root hs', h.root n]
    · rw [Scope.flattened_modify_insert hs, Scope.flattened_modify_insert hs', h.flattened]

theorem define (h : SameView s s') (name : String) (v : Expr) :
    SameOutcome SameView (s.define name v) (s'.define name v) :=
  SameOutcome.define name (by rw [h.lookup name]) fun _ _ => h.insert name v

/-- the scopes of two calls of one closure from such chains -/
theorem enter (h : SameView s s') (m captured : Bindings Expr) :
    SameView ⟨[m, captured], s.root⟩ ⟨[m, captured], s'.root⟩ :=
  ⟨h.root, rfl, Iff.rfl⟩

end SameView

theorem sameView_simulation : Simulation Eq Eq SameView :=
  Simulation.ofScopes (fun h => h.lookup) (fun h => h.define) (fun h => h.flattened)
    (fun h => h.enter)

/-- no expression tells chains with the same view apart -/
theorem SameView.eval_outcome_eq {s s' : Scope} (h : SameView s s') (depth : Nat) (e : Expr)
    (raised : Bool) (log log' : List Event) :
    ((eval depth e).exec ⟨s, raised, log⟩).1 = ((eval depth e).exec ⟨s', raised, log'⟩).1 := by
  have hl : Linked SameView ⟨s, raised, log⟩ ⟨s', raised, log'⟩ := ⟨h, rfl⟩
  have hsim : Sim (fun _ => False) SameView Eq (eval depth e) (eval depth e) :=
    sameView_simulation.eval_sim depth e e rfl
  exact (hsim _ _ hl).outcome_eq

/-- The scope of a call of a closure looks like a child of the scope that the closure was built
in. -/
theorem sameView_call {s t : Scope} (hroot : ∀ n, t.root.get? n = s.root.get? n)
    (m : Bindings Expr) : SameView ⟨[m, s.flattened], t.root⟩ (s.child m) := by
  refine ⟨hroot, ?_, ?_⟩
  · show Bindings.overlay m (Bindings.overlay s.flattened []) = Bindings.overlay m s.flattened
    rw [Bindings.overlay_nil s.sorted_flattened]
  · constructor
    · intro h; cases h
    · intro h; cases h

/-- A call of a closure gives what its body gives in a child of the scope that the closure was
built in, with the parameters bound to the arguments. -/
theorem callClosure_eq_eval_body {r : Run} {params body c : Expr}
    (hc : ((Eval.lambda [params, body]).exec r).1 = .ok c) {args : List Expr}
    (hargs : args.length = (Eval.declared params).length) {t : Run}
    (ht : ∀ n, t.scope.root.get? n = r.scope.root.get? n) (name : String) (depth : Nat)
    (log : List Event) :
    ((Eval.callClosure (eval depth) name c args).exec t).1 =
      ((eval depth body).exec
        ⟨r.scope.child (Bindings.ofList ((Eval.parameters params).zip args)), t.raised,
          log⟩).1 := by
  obtain ⟨hn, rfl⟩ := Eval.lambda_exec_eq_ok hc
  obtain ⟨hmap, hnd, hall⟩ := Eval.parameterNames_eq_ok hn
  have hlen : (Eval.parameters params).length = args.length := by
    rw [hargs, ← List.length_map (f := Expr.symbol?), hmap, List.length_map]
  rw [Eval.callClosure_closure _ name hlen (fun n h => (hall n h).1) hnd,
    Action.exec_bind_ok (Action.exec_record _ t), Action.exec_get_bind, Action.exec_inScope,
    Eval.eval_mark]
  exact (sameView_call ht _).eval_outcome_eq depth body t.raised _ log

/-- the scopes of two nested calls, the inner `x` hiding the outer one -/
def shadowing : Scope :=
  ⟨[[("x", Expr.number 2)], [("x", Expr.number 1), ("y", Expr.number 5)]], Scope.baseline⟩

/-- `(begin (define z (+ x y a)) (lambda (w) (+ z w)))` -/
def shadowingBody : Expr :=
  Expr.node (.symbol "begin")
    [Expr.node (.symbol "define") [Expr.symbol "z",
      Expr.node (.symbol "+") [Expr.symbol "x", Expr.symbol "y", Expr.symbol "a"]],
    Expr.node (.symbol "lambda") [Expr.symbol "w",
      Expr.node (.symbol "+") [Expr.symbol "z", Expr.symbol "w"]]]

/-- the scope of a call of its own, where `x` is something else -/
def shadowingCaller : Run := Run.start ⟨[[("x", Expr.number 9)]], Scope.baseline⟩

theorem callClosure_shadowing :
    ((Eval.callClosure (eval depthLimit) "f"
        (Eval.closure ["a"] shadowingBody shadowing.flattened) [Expr.number 3]).exec
          shadowingCaller).1 =
      ((eval depthLimit shadowingBody).exec
        (Run.start (shadowing.child (Bindings.ofList [("a", Expr.number 3)])))).1 := by
  have hc : ((Eval.lambda [Expr.symbol "a", shadowingBody]).exec (Run.start shadowing)).1 =
      .ok (Eval.closure ["a"] shadowingBody shadowing.flattened) := rfl
  have hargs : [Expr.number 3].length = (Eval.declared (Expr.symbol "a")).length := rfl
  have ht : ∀ n, shadowingCaller.scope.root.get? n = (Run.start shadowing).scope.root.get? n :=
    fun _ => rfl
  exact callClosure_eq_eval_body hc hargs ht "f" depthLimit []

end ChartLisp
