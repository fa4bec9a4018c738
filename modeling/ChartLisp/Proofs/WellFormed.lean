import ChartLisp.Proofs.Closure

/-!
# Well-formed values

One tree type holds syntax and values, and most trees are not the value of anything.  Here are those
that are: plain data, lists of values, and closures.

* `Expr.WellFormed`    such a value
* `Scope.WellFormed`   a chain that binds only bindable names, and only to such values
-/

namespace ChartLisp

/-- Plain data, a list of values, or a closure `(lambda (list p₁ … pₙ) body)` with distinct bindable
parameters that captured values under bindable names; every property is a value again. -/
inductive Expr.WellFormed : Expr → Prop where
  | data {a : Atom} {props : Bindings Expr} (ha : a.symbol? = none)
      (hp : ∀ p ∈ props, WellFormed p.2) : WellFormed ⟨a, [], props, [], false⟩
  | list {es : List Expr} {props : Bindings Expr} (hes : ∀ e ∈ es, WellFormed e)
      (hp : ∀ p ∈ props, WellFormed p.2) :
      WellFormed ⟨.symbol Expr.listName, es, props, [], false⟩
  | closure {names : List String} {body : Expr} {props captured : Bindings Expr}
      (hne : names ≠ []) (hnd : names.Nodup) (hb : ∀ n ∈ names, Bindable n)
      (hcn : ∀ p ∈ captured, Bindable p.1) (hcv : ∀ p ∈ captured, WellFormed p.2)
      (hp : ∀ p ∈ props, WellFormed p.2) :
      WellFormed ⟨.symbol Expr.lambdaName, [Expr.list (names.map Expr.symbol), body], props,
        captured, false⟩

/-- only bindable names, and only values -/
def Bindings.WellFormed (b : Bindings Expr) : Prop := ∀ p ∈ b, Bindable p.1 ∧ p.2.WellFormed

namespace Expr.WellFormed

theorem leaf {a : Atom} (ha : a.symbol? = none) : (Expr.leaf a).WellFormed :=
  .data ha (List.forall_mem_nil _)

theorem number (x : Double) : (Expr.number x).WellFormed := leaf rfl

theorem complex (z : Complex) : (Expr.complex z).WellFormed := leaf rfl

theorem ofList {es : List Expr} (h : ∀ e ∈ es, e.WellFormed) : (Expr.list es).WellFormed :=
  .list h (List.forall_mem_nil _)

theorem properties {e : Expr} (h : e.WellFormed) : ∀ p ∈ e.properties, p.2.WellFormed := by
  cases h with
  | data _ hp => exact hp
  | list _ hp => exact hp
  | closure _ _ _ _ _ hp => exact hp

theorem property {e : Expr} (h : e.WellFormed) (key : String) : (e.property key).WellFormed := by
  unfold Expr.property
  cases hk : Bindings.get? e.properties key with
  | none => exact leaf rfl
  | some v => exact h.properties (key, v) (Bindings.mem_of_get? hk)

theorem setProperty {e v : Expr} (h : e.WellFormed) (hv : v.WellFormed) (key : String) :
    (e.setProperty key v).WellFormed := by
  have hprops : ∀ p ∈ Bindings.insert key v e.properties, p.2.WellFormed := by
    intro p hp
    rcases Bindings.mem_insert hp with rfl | hp
    · exact hv
    · exact h.properties p hp
  cases h with
  | data ha _ => exact .data ha hprops
  | list hes _ => exact .list hes hprops
  | closure hne hnd hb hcn hcv _ => exact .closure hne hnd hb hcn hcv hprops

theorem elements {e : Expr} (h : e.WellFormed) {es : List Expr} (he : e.elements? = some es) :
    ∀ x ∈ es, x.WellFormed := by
  cases h with
  | data ha _ =>
    unfold Expr.elements? Expr.isList at he
    rw [ha] at he
    cases he
  | list hes _ => cases he; exact hes
  | closure _ _ _ _ _ _ => cases he

/-- a value that is headed by `lambda` is a closure that can be entered -/
theorem of_isLambda {e : Expr} (h : e.WellFormed) (hl : e.isLambda = true) :
    ∃ (names : List String) (body : Expr),
      e.tail = [Expr.list (names.map Expr.symbol), body] ∧ names.Nodup ∧
      (∀ n ∈ names, Bindable n) ∧ Bindings.WellFormed e.captured := by
  cases h with
  | data ha _ =>
    unfold Expr.isLambda at hl
    rw [ha] at hl
    cases hl
  | list _ _ => cases hl
  | @closure names body _ _ _ hnd hb hcn hcv _ =>
    exact ⟨names, body, rfl, hnd, hb, fun p hp => ⟨hcn p hp, hcv p hp⟩⟩

end Expr.WellFormed

/-! ## Scopes -/

theorem Bindings.WellFormed.insert {b : Bindings Expr} (h : b.WellFormed) {name : String} {v : Expr}
    (hn : Bindable name) (hv : v.WellFormed) : (Bindings.insert name v b).WellFormed := by
  intro p hp
  rcases Bindings.mem_insert hp with rfl | hp
  · exact ⟨hn, hv⟩
  · exact h p hp

structure Scope.WellFormed (s : Scope) : Prop where
  locals : ∀ m ∈ s.locals, m.WellFormed
  root : s.root.WellFormed

namespace Scope.WellFormed

variable {s : Scope}

theorem flattened (h : s.WellFormed) : s.flattened.WellFormed := by
  obtain ⟨locals, root⟩ := s
  have hall : ∀ m ∈ locals, m.WellFormed := h.locals
  clear h
  show Bindings.WellFormed (locals.foldr Bindings.overlay [])
  induction locals with
  | nil => exact List.forall_mem_nil _
  | cons m ms ih =>
    intro p hp
    rcases Bindings.mem_overlay hp with hp | hp
    · exact hall m List.mem_cons_self p hp
    · exact ih (fun m hm => hall m (List.mem_cons_of_mem _ hm)) p hp

theorem lookup (h : s.WellFormed) {name : String} {v : Expr} (hv : s.lookup name = some v) :
    Bindable name ∧ v.WellFormed := by
  rw [Scope.lookup_eq] at hv
  rcases Option.or_eq_some_iff.mp hv with hv | ⟨_, hv⟩
  · exact h.flattened (name, v) (Bindings.mem_of_get? hv)
  · exact h.root (name, v) (Bindings.mem_of_get? hv)

theorem insert (h : s.WellFormed) {name : String} {v : Expr} (hn : Bindable name)
    (hv : v.WellFormed) : (s.modify (Bindings.insert name v)).WellFormed := by
  obtain ⟨locals, root⟩ := s
  cases locals with
  | nil => exact ⟨h.locals, h.root.insert hn hv⟩
  | cons m ms =>
    refine ⟨fun m' hm' => ?_, h.root⟩
    rcases List.mem_cons.mp hm' with rfl | hm'
    · exact (h.locals m List.mem_cons_self).insert hn hv
    · exact h.locals m' (List.mem_cons_of_mem _ hm')

end Scope.WellFormed

end ChartLisp
