import ChartLisp.Proofs.Bindings
import ChartLisp.Scope

/-!
# Scopes seen through their flattened view

Looking a name up needs the flattened view of a scope chain and its root, and not the chain.

* `Bindable`             names without a fixed meaning, the only ones that are ever bound
* `Scope.lookup_eq`      a lookup through the flattened view and the root
* `Scope.flattened_modify_insert`   a new binding of an inner scope is a new binding of the view
* `Scope.define_eq_ok`   what a definition needs, and the scope it gives
* `Scope.Every P`        all values of the chain have the property `P`
* `Scope.mapValues f`    the same chain with its values under `f`
-/

namespace ChartLisp

/-- names that a program may bind -/
def Bindable (name : String) : Prop := Form.ofName? name = none ∧ Builtin.ofName? name = none

theorem requireUnreserved_eq_ok {name : String} :
    requireUnreserved name = .ok () ↔ Bindable name := by
  unfold requireUnreserved Bindable
  cases Form.ofName? name with
  | some f => simp
  | none =>
    cases Builtin.ofName? name with
    | some b => simp
    | none => simp

namespace Scope

/-! ## The flattened view -/

theorem sorted_flattened (s : Scope) : s.flattened.Sorted := by
  unfold flattened
  induction s.locals with
  | nil => exact List.Pairwise.nil
  | cons m ms ih => exact Bindings.sorted_overlay m ih

theorem get?_flattened (s : Scope) (name : String) :
    Bindings.get? s.flattened name = s.locals.findSome? (Bindings.get? · name) := by
  unfold flattened
  induction s.locals with
  | nil => rfl
  | cons m ms ih =>
    rw [List.foldr_cons, Bindings.get?_overlay, ih, List.findSome?_cons]
    cases Bindings.get? m name <;> rfl

theorem lookup_eq (s : Scope) (name : String) :
    s.lookup name = (Bindings.get? s.flattened name).or (s.root.get? name) := by
  rw [get?_flattened]
  rfl

theorem modify_root {s : Scope} (h : s.locals ≠ []) (f : Bindings Expr → Bindings Expr) :
    (s.modify f).root = s.root := by
  obtain ⟨locals, root⟩ := s
  cases locals with
  | nil => exact absurd rfl h
  | cons m ms => rfl

theorem modify_locals_eq_nil {s : Scope} (f : Bindings Expr → Bindings Expr) :
    (s.modify f).locals = [] ↔ s.locals = [] := by
  obtain ⟨locals, root⟩ := s
  cases locals with
  | nil => exact Iff.rfl
  | cons m ms =>
    constructor
    · intro h; cases h
    · intro h; cases h

theorem flattened_modify_insert {s : Scope} (h : s.locals ≠ []) (name : String) (v : Expr) :
    (s.modify (Bindings.insert name v)).flattened = Bindings.insert name v s.flattened := by
  obtain ⟨locals, root⟩ := s
  cases locals with
  | nil => exact absurd rfl h
  | cons m ms => exact Bindings.overlay_insert (sorted_flattened ⟨ms, root⟩)

/-! ## Definitions -/

theorem requireUnbound_eq_ok {s : Scope} {name : String} :
    s.requireUnbound name = .ok () ↔ Bindable name ∧ s.lookup name = none := by
  rw [← requireUnreserved_eq_ok]
  unfold requireUnbound
  cases requireUnreserved name with
  | error e => simp [bind, Except.bind]
  | ok _ => cases s.lookup name <;> simp [bind, Except.bind, pure, Except.pure]

theorem requireUnbound_congr {s s' : Scope} {name : String}
    (h : (s.lookup name).isSome = (s'.lookup name).isSome) :
    s.requireUnbound name = s'.requireUnbound name := by
  unfold requireUnbound
  rw [h]

theorem define_eq_ok {s u : Scope} {name : String} {v : Expr} :
    s.define name v = .ok u ↔
      Bindable name ∧ s.lookup name = none ∧ u = s.modify (Bindings.insert name v) := by
  rw [← and_assoc, ← requireUnbound_eq_ok]
  unfold define
  cases s.requireUnbound name with
  | error e => simp [bind, Except.bind]
  | ok _ => simp [bind, Except.bind, pure, Except.pure, eq_comm]

/-! ## A property of all values -/

structure Every (P : Expr → Prop) (s : Scope) : Prop where
  locals : ∀ m ∈ s.locals, ∀ p ∈ m, P p.2
  root : ∀ p ∈ s.root, P p.2

namespace Every

variable {P : Expr → Prop} {s : Scope}

theorem flattened (h : s.Every P) : ∀ p ∈ s.flattened, P p.2 := by
  have hlocals := h.locals
  unfold Scope.flattened
  generalize s.locals = ms at hlocals ⊢
  induction ms with
  | nil => exact List.forall_mem_nil _
  | cons m ms ih =>
    obtain ⟨hm, hms⟩ := List.forall_mem_cons.mp hlocals
    intro p hp
    rcases Bindings.mem_overlay hp with hp | hp
    · exact hm p hp
    · exact ih hms p hp

theorem lookup (h : s.Every P) {name : String} {v : Expr} (hv : s.lookup name = some v) : P v := by
  rw [lookup_eq] at hv
  rcases Option.or_eq_some_iff.mp hv with hv | ⟨_, hv⟩
  · exact h.flattened (name, v) (Bindings.mem_of_get? hv)
  · exact h.root (name, v) (Bindings.mem_of_get? hv)

theorem insert (h : s.Every P) (name : String) {v : Expr} (hv : P v) :
    (s.modify (Bindings.insert name v)).Every P := by
  have hinsert : ∀ m : Bindings Expr, (∀ p ∈ m, P p.2) → ∀ p ∈ Bindings.insert name v m, P p.2 := by
    intro m hm p hp
    rcases Bindings.mem_insert hp with rfl | hp
    · exact hv
    · exact hm p hp
  obtain ⟨locals, root⟩ := s
  cases locals with
  | nil => exact ⟨h.locals, hinsert root h.root⟩
  | cons m ms =>
    obtain ⟨hm, hms⟩ := List.forall_mem_cons.mp h.locals
    exact ⟨List.forall_mem_cons.mpr ⟨hinsert m hm, hms⟩, h.root⟩

end Every

/-- the constants are atoms that stand for themselves -/
theorem fresh_every {P : Expr → Prop} (h : ∀ a : Atom, a.symbol? = none → P (Expr.leaf a)) :
    fresh.Every P := by
  have hempty : (⟨[], []⟩ : Scope).Every P := ⟨List.forall_mem_nil _, List.forall_mem_nil _⟩
  exact ((hempty.insert "pi" (h _ rfl)).insert "e" (h _ rfl)).insert "I" (h _ rfl)

/-! ## Values under a function -/

def mapValues (f : Expr → Expr) (s : Scope) : Scope :=
  ⟨s.locals.map (Bindings.mapValues f), Bindings.mapValues f s.root⟩

section
variable (f : Expr → Expr) (s : Scope)

theorem flattened_mapValues : (s.mapValues f).flattened = Bindings.mapValues f s.flattened := by
  unfold flattened mapValues
  induction s.locals with
  | nil => rfl
  | cons m ms ih =>
    rw [List.map_cons, List.foldr_cons, List.foldr_cons, ih, Bindings.mapValues_overlay]

theorem lookup_mapValues (name : String) :
    (s.mapValues f).lookup name = (s.lookup name).map f := by
  have hroot : (s.mapValues f).root = Bindings.mapValues f s.root := rfl
  rw [lookup_eq, lookup_eq, flattened_mapValues, hroot, Bindings.get?_mapValues,
    Bindings.get?_mapValues, Option.map_or]

theorem mapValues_modify_insert (name : String) (v : Expr) :
    (s.modify (Bindings.insert name v)).mapValues f =
      (s.mapValues f).modify (Bindings.insert name (f v)) := by
  obtain ⟨locals, root⟩ := s
  cases locals with
  | nil =>
    show Scope.mk [] (Bindings.mapValues f (Bindings.insert name v root)) = _
    rw [Bindings.mapValues_insert]
    rfl
  | cons m ms =>
    show Scope.mk (Bindings.mapValues f (Bindings.insert name v m) :: _) _ = _
    rw [Bindings.mapValues_insert]
    rfl

end

end Scope

end ChartLisp
