import ChartLisp.Proofs.Forms
import ChartLisp.Proofs.Scope

/-!
# Scopes only grow, by definitions

Whatever an evaluation does, all that happens to the scope it runs in is a sequence of definitions.

* `Scope.Grows P`     reached by definitions of names in `P`
* `Scope.Grows.lookup`, `Scope.Grows.current`, `Scope.Grows.enclosing`, `Scope.Grows.fresh`
                      what such a sequence keeps, and what it can add
* `Expr.Defines`      the names that an expression can define where it stands
* `eval_grows`        an evaluation defines only those
-/

namespace ChartLisp

/-! ## Sequences of definitions -/

namespace Scope

/-- the scopes around the innermost one, the root last -/
def enclosing (s : Scope) : List (Bindings Expr) := (s.locals ++ [s.root]).tail

theorem current_modify (s : Scope) (f : Bindings Expr → Bindings Expr) :
    (s.modify f).current = f s.current := by
  obtain ⟨locals, root⟩ := s
  cases locals <;> rfl

theorem enclosing_modify (s : Scope) (f : Bindings Expr → Bindings Expr) :
    (s.modify f).enclosing = s.enclosing := by
  obtain ⟨locals, root⟩ := s
  cases locals <;> rfl

theorem lookup_modify_insert (s : Scope) (name : String) (v : Expr) (n : String) :
    (s.modify (Bindings.insert name v)).lookup n = if n = name then some v else s.lookup n := by
  obtain ⟨locals, root⟩ := s
  cases locals with
  | nil =>
    show (none : Option Expr).or (Bindings.get? (Bindings.insert name v root) n) = _
    rw [Bindings.get?_insert]
    rfl
  | cons m ms =>
    show Option.or (List.findSome? (Bindings.get? · n) (Bindings.insert name v m :: ms)) _ =
      if n = name then _ else Option.or (List.findSome? (Bindings.get? · n) (m :: ms)) _
    rw [List.findSome?_cons, List.findSome?_cons, Bindings.get?_insert]
    by_cases h : n = name
    · rw [if_pos h, if_pos h]
      rfl
    · rw [if_neg h, if_neg h]
      rfl

/-- `u` comes from `s` by definitions of names in `P`, one after the other -/
inductive Grows (P : String → Prop) (s : Scope) : Scope → Prop where
  | refl : Grows P s s
  | step {u w : Scope} {name : String} {v : Expr} (h : Grows P s u) (hp : P name)
      (hd : u.define name v = .ok w) : Grows P s w

namespace Grows

variable {P Q : String → Prop} {s t u : Scope}

theorem trans (h : Grows P s t) (h' : Grows P t u) : Grows P s u := by
  induction h' with
  | refl => exact h
  | step _ hp hd ih => exact .step ih hp hd

theorem mono (hpq : ∀ name, P name → Q name) (h : Grows P s u) : Grows Q s u := by
  induction h with
  | refl => exact .refl
  | step _ hp hd ih => exact .step ih (hpq _ hp) hd

/-- a name that has a value keeps it -/
theorem lookup (h : Grows P s u) {n : String} {x : Expr} (hx : s.lookup n = some x) :
    u.lookup n = some x := by
  induction h with
  | refl => exact hx
  | @step u w name v _ _ hd ih =>
    obtain ⟨_, hnone, rfl⟩ := define_eq_ok.mp hd
    have hne : n ≠ name := by
      intro h
      rw [h, hnone] at ih
      cases ih
    rw [lookup_modify_insert, if_neg hne]
    exact ih

theorem enclosing (h : Grows P s u) : u.enclosing = s.enclosing := by
  induction h with
  | refl => rfl
  | step _ _ hd ih =>
    obtain ⟨_, _, rfl⟩ := define_eq_ok.mp hd
    rw [enclosing_modify, ih]

theorem locals_eq_nil (h : Grows P s u) (hs : s.locals = []) : u.locals = [] := by
  induction h with
  | refl => exact hs
  | step _ _ hd ih =>
    obtain ⟨_, _, rfl⟩ := define_eq_ok.mp hd
    exact (modify_locals_eq_nil _).mpr ih

theorem lookup_current {n : String} {x : Expr} (h : s.current.get? n = some x) :
    s.lookup n = some x := by
  obtain ⟨locals, root⟩ := s
  cases locals with
  | nil => exact h
  | cons m ms =>
    show Option.or (List.findSome? (Bindings.get? · n) (m :: ms)) _ = _
    have hm : Bindings.get? m n = some x := h
    rw [List.findSome?_cons, hm]
    rfl

theorem current (h : Grows P s u) {n : String} {x : Expr} (hx : s.current.get? n = some x) :
    u.current.get? n = some x := by
  induction h with
  | refl => exact hx
  | @step u w name v _ _ hd ih =>
    obtain ⟨_, hnone, rfl⟩ := define_eq_ok.mp hd
    have hne : n ≠ name := by
      intro h
      rw [← h, lookup_current ih] at hnone
      cases hnone
    rw [current_modify, Bindings.get?_insert, if_neg hne]
    exact ih

/-- a new binding has a name in `P` that had no value at all before and no fixed meaning -/
theorem fresh (h : Grows P s u) {n : String} {x : Expr} (hs : s.current.get? n = none)
    (hu : u.current.get? n = some x) : P n ∧ s.lookup n = none ∧ Bindable n := by
  induction h generalizing x with
  | refl => rw [hs] at hu; cases hu
  | @step u w name v h hp hd ih =>
    obtain ⟨hb, hnone, rfl⟩ := define_eq_ok.mp hd
    rw [current_modify, Bindings.get?_insert] at hu
    by_cases hn : n = name
    · subst hn
      refine ⟨hp, ?_, hb⟩
      cases hl : s.lookup n with
      | none => rfl
      | some y =>
        rw [h.lookup hl] at hnone
        cases hnone
    · rw [if_neg hn] at hu
      exact ih hu

/-- without names to define nothing changes -/
theorem eq_of_empty (h : Grows P s u) (hp : ∀ name, ¬ P name) : u = s := by
  cases h with
  | refl => rfl
  | step _ hname _ => exact absurd hname (hp _)

end Grows

end Scope

/-! ## Actions -/

namespace Action

variable {α β γ : Type} {P Q : String → Prop}

/-- the action does nothing to its scope but define names in `P` -/
def Grows (P : String → Prop) (a : Action α) : Prop :=
  ∀ r : Run, r.scope.Grows P (a.exec r).2.scope

namespace Grows

theorem mono {a : Action α} (hpq : ∀ name, P name → Q name) (h : Grows P a) : Grows Q a :=
  fun r => (h r).mono hpq

theorem bind {a : Action α} {k : α → Action β} (h : Grows P a) (hk : ∀ x, Grows P (k x)) :
    Grows P (a >>= k) := by
  intro r
  have ha := h r
  rw [exec_bind]
  cases hx : a.exec r with
  | mk x r' =>
    rw [hx] at ha
    cases x with
    | error e => exact ha
    | ok x => exact ha.trans (hk x r')

/-- what an action defines in another scope is dropped with that scope -/
theorem inScope (s : Scope) (a : Action α) : Grows P (inScope s a) := fun _ => .refl

theorem poll : Grows P poll := by
  intro r
  rw [exec_poll]
  by_cases h : r.raised
  · rw [if_pos h]
    exact .refl
  · rw [if_neg h]
    exact .refl

end Grows

theorem grows_closed : Closed fun _ a => Grows P a where
  pure _ _ := .refl
  throw _ _ := .refl
  bind := Grows.bind
  get _ := .refl
  record _ _ := .refl
  shielded h r := h { r with raised := false }

/-- a definition is the one thing that changes a scope -/
theorem defining_grows {name : String} (hp : P name) (v : Expr) : Grows P (defining name v) := by
  intro r
  rw [exec_defining]
  cases hs : r.scope.define name v with
  | error e => exact .refl
  | ok s => exact .step .refl hp hs

theorem Grows.mapM {f : γ → Action α} {xs : List γ} (h : ∀ x ∈ xs, Grows P (f x)) :
    Grows P (xs.mapM f) :=
  grows_closed.mapM h

/-- a sampling may end with any error, so the rule for plots does not apply -/
theorem Grows.sampling {f : Double → Action Double} (s : Plot.Sampling α)
    (h : ∀ x, Grows P (f x)) : Grows P (sampling f s) := by
  induction s with
  | done a => exact grows_closed.pure a
  | fail e => exact fun _ => .refl
  | note v _ ih => exact Grows.bind (fun _ => .refl) fun _ => ih
  | ask x _ ih => exact (h x).bind ih

end Action

/-! ## Evaluation -/

/-- The names that evaluating the expression can define in the scope it is evaluated in: the first
children of its nodes headed by `define`, those inside a node headed by `lambda` left out. -/
inductive Expr.Defines : Expr → String → Prop where
  | here {e target : Expr} {name : String} (hd : e.head = .symbol Form.define.name)
      (ht : e.tail.head? = some target) (hn : target.symbol? = some name) : Defines e name
  | child {e c : Expr} {name : String} (hl : e.head ≠ .symbol Form.lambda.name) (hc : c ∈ e.tail)
      (h : Defines c name) : Defines e name

namespace Eval

open ChartLisp.Action (Grows grows_closed)

variable {P : String → Prop}

/-- no procedure changes the scope it is called from -/
theorem call_grows (ev : Expr → Action Expr) (name : String) (p : Procedure) (args : List Expr) :
    Grows P (call ev name p args) :=
  grows_closed.call (fun s body => Grows.inScope s (ev body)) name p args

theorem sampleValue_grows {invoke : Invoke} (hinv : ∀ name p args, Grows P (invoke name p args))
    (name : String) (p : Procedure) (x : Double) : Grows P (sampleValue invoke name p x) :=
  grows_closed.sampleValue hinv name p x

/-- a node defines what its children define, and a `define` its target besides -/
theorem node_grows {ev : Expr → Action Expr} {invoke : Invoke}
    (hev : ∀ e, Grows e.Defines (ev e))
    (hinv : ∀ (P : String → Prop) name p args, Grows P (invoke name p args)) (e : Expr) :
    Grows e.Defines (node ev invoke e) := by
  refine grows_closed.node (fun hf c hc => ?_) (hinv e.Defines) fun hf target name v ht hn => ?_
  · have hhead : e.head ≠ .symbol Form.lambda.name := fun hh => hf (form?_of_head hh)
    exact (hev c).mono fun name hn => .child hhead hc hn
  · exact Action.defining_grows (.here (head_eq_of_form? hf) ht hn) v

end Eval

/-- All that an evaluation does to its scope is define names that the expression defines. -/
theorem eval_grows (depth : Nat) (e : Expr) : Action.Grows e.Defines (eval depth e) := by
  induction depth generalizing e with
  | zero =>
    refine Action.Grows.poll.bind fun _ => ?_
    exact Action.Grows.bind (fun _ => .refl) fun _ _ => .refl
  | succ depth ih =>
    refine Action.Grows.poll.bind fun _ => ?_
    exact Eval.node_grows ih (fun P name p args => Eval.call_grows (eval depth) name p args) e

end ChartLisp
