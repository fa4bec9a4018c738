import ChartLisp.Proofs.Exec
import Mathlib.Data.List.Forall2

/-!
# Two actions side by side

Two actions are compared step by step: started in linked states they give related values or the
same error, and end in linked states again.

* `Linked S`         the scopes are related by `S` and the same interrupt is pending
* `Agree stop S V`   outcomes with the states they leave: related values or equal errors, in linked
                     states.  If the first one fails with an error in `stop` nothing is said about
                     the second
* `Sim stop S V`     agreement from all linked states
* `Sim.bind`, `Sim.mapM`   the rules for sequences of actions
* `Sampling.Rel V`   samplings that ask the same questions and end in related results

The log is left out: no action reads it.
-/

namespace ChartLisp

variable {α β γ δ : Type}

/-- the same on both sides, with a property -/
def Both (P : α → Prop) (a b : α) : Prop := a = b ∧ P a

/-- the same under `f`, with a property on the first side -/
def Alike (f : α → β) (P : α → Prop) (a b : α) : Prop := f a = f b ∧ P a

theorem forall₂_alike {f : α → β} {P : α → Prop} {xs ys : List α} :
    List.Forall₂ (Alike f P) xs ys ↔ xs.map f = ys.map f ∧ ∀ x ∈ xs, P x := by
  constructor
  · intro h
    induction h with
    | nil => exact ⟨rfl, List.forall_mem_nil _⟩
    | cons hxy _ ih =>
      refine ⟨?_, List.forall_mem_cons.mpr ⟨hxy.2, ih.2⟩⟩
      rw [List.map_cons, List.map_cons, hxy.1, ih.1]
  · rintro ⟨hf, hp⟩
    induction xs generalizing ys with
    | nil =>
      obtain rfl : ys = [] := List.map_eq_nil_iff.mp hf.symm
      exact .nil
    | cons x xs ih =>
      obtain ⟨y, ys, rfl, hy, hys⟩ := List.map_eq_cons_iff.mp hf.symm
      obtain ⟨hx, hxs⟩ := List.forall_mem_cons.mp hp
      exact .cons ⟨hy.symm, hx⟩ (ih hys.symm hxs)

theorem forall₂_both {P : α → Prop} {xs ys : List α} :
    List.Forall₂ (Both P) xs ys ↔ xs = ys ∧ ∀ x ∈ xs, P x := by
  have h : List.Forall₂ (Alike id P) xs ys ↔ xs.map id = ys.map id ∧ ∀ x ∈ xs, P x :=
    forall₂_alike
  rwa [List.map_id, List.map_id] at h

theorem rel_alike {f : α → β} {P : α → Prop} {x y : Option α} (h : x.map f = y.map f)
    (hp : ∀ a, x = some a → P a) : Option.Rel (Alike f P) x y := by
  cases x with
  | none =>
    obtain rfl : y = none := Option.map_eq_none_iff.mp h.symm
    exact .none
  | some a =>
    obtain ⟨b, rfl, hb⟩ := Option.map_eq_some_iff.mp h.symm
    exact .some ⟨hb.symm, hp a rfl⟩

theorem rel_both {P : α → Prop} {x : Option α} (h : ∀ a, x = some a → P a) :
    Option.Rel (Both P) x x :=
  rel_alike (f := id) rfl h

/-- both succeed with related values, or both fail alike -/
inductive SameOutcome (V : α → β → Prop) : Except EvalError α → Except EvalError β → Prop where
  | ok {a : α} {b : β} (h : V a b) : SameOutcome V (.ok a) (.ok b)
  | error (e : EvalError) : SameOutcome V (.error e) (.error e)

theorem SameOutcome.refl (x : Except EvalError α) : SameOutcome Eq x x := by
  cases x with
  | ok a => exact .ok rfl
  | error e => exact .error e

/-- the same outcome twice, which is known where it is a success -/
theorem SameOutcome.refl_ok (x : Except EvalError α) :
    SameOutcome (fun a b => a = b ∧ x = .ok a) x x := by
  cases x with
  | ok a => exact .ok ⟨rfl, rfl⟩
  | error e => exact .error e

theorem SameOutcome.imp {V W : α → β → Prop} (hVW : ∀ a b, V a b → W a b) {x : Except EvalError α}
    {y : Except EvalError β} (h : SameOutcome V x y) : SameOutcome W x y := by
  cases h with
  | ok hv => exact .ok (hVW _ _ hv)
  | error e => exact .error e

/-- samplings that ask the same questions in the same order and end in related results -/
inductive Plot.Sampling.Rel (V : α → β → Prop) : Sampling α → Sampling β → Prop where
  | done {a : α} {b : β} (h : V a b) : Rel V (.done a) (.done b)
  | fail (e : EvalError) : Rel V (.fail e) (.fail e)
  | note (v v' : Event) {s : Sampling α} {s' : Sampling β} (h : Rel V s s') :
      Rel V (.note v s) (.note v' s')
  | ask (x : Double) {s : Double → Sampling α} {s' : Double → Sampling β}
      (h : ∀ y, Rel V (s y) (s' y)) : Rel V (.ask x s) (.ask x s')

/-- the same sampling goes first -/
theorem Plot.Sampling.Rel.bind {V : β → γ → Prop} {s : Sampling α} {k : α → Sampling β}
    {l : α → Sampling γ} (h : ∀ a, Rel V (k a) (l a)) : Rel V (s >>= k) (s >>= l) := by
  induction s with
  | done a => exact h a
  | fail e => exact .fail e
  | note v _ ih => exact .note v v ih
  | ask x _ ih => exact .ask x ih

namespace Action

/-- states in related scopes with the same pending interrupt -/
structure Linked (S : Scope → Scope → Prop) (r r' : Run) : Prop where
  scope : S r.scope r'.scope
  raised : r.raised = r'.raised

inductive Agree (stop : EvalError → Prop) (S : Scope → Scope → Prop) (V : α → β → Prop) :
    Except EvalError α × Run → Except EvalError β × Run → Prop where
  | stopped {e : EvalError} {r : Run} {x : Except EvalError β × Run} (h : stop e) :
      Agree stop S V (.error e, r) x
  | ok {a : α} {b : β} {r r' : Run} (hv : V a b) (hl : Linked S r r') :
      Agree stop S V (.ok a, r) (.ok b, r')
  | error {e : EvalError} {r r' : Run} (hl : Linked S r r') :
      Agree stop S V (.error e, r) (.error e, r')

/-- without errors that end the comparison the outcomes are the same -/
theorem Agree.outcome_eq {S : Scope → Scope → Prop} {x y : Except EvalError α × Run}
    (h : Agree (fun _ => False) S Eq x y) : x.1 = y.1 := by
  cases h with
  | stopped h => exact h.elim
  | ok hv _ => rw [hv]
  | error _ => rfl

/-- the same outcome and scope under `f` and `g`, with their properties -/
theorem Agree.alike {f : α → β} {P : α → Prop} {g : Scope → γ} {Q : Scope → Prop}
    {x y : Except EvalError α × Run} (h : Agree (fun _ => False) (Alike g Q) (Alike f P) x y) :
    x.1.map f = y.1.map f ∧ g x.2.scope = g y.2.scope ∧ (∀ a, x.1 = .ok a → P a) ∧
      Q x.2.scope := by
  cases h with
  | stopped h => exact h.elim
  | ok hv hl =>
    exact ⟨congrArg Except.ok hv.1, hl.scope.1, fun a ha => by cases ha; exact hv.2, hl.scope.2⟩
  | error hl => exact ⟨rfl, hl.scope.1, nofun, hl.scope.2⟩

/-- the same outcome and scope, with their properties -/
theorem Agree.both {P : α → Prop} {Q : Scope → Prop} {x y : Except EvalError α × Run}
    (h : Agree (fun _ => False) (Both Q) (Both P) x y) :
    x.1 = y.1 ∧ x.2.scope = y.2.scope ∧ (∀ a, x.1 = .ok a → P a) ∧ Q x.2.scope := by
  have halike := Agree.alike (f := id) (g := id) h
  rwa [Except.map_id, id_eq, id_eq] at halike

/-- the actions agree from all linked states -/
def Sim (stop : EvalError → Prop) (S : Scope → Scope → Prop) (V : α → β → Prop)
    (a : Action α) (b : Action β) : Prop :=
  ∀ r r', Linked S r r' → Agree stop S V (a.exec r) (b.exec r')

/-- actions that agree on two states, each followed by one of two that agree on all -/
theorem Agree.bind {stop : EvalError → Prop} {S : Scope → Scope → Prop} {V : α → β → Prop}
    {W : γ → δ → Prop} {a : Action α} {b : Action β} {k : α → Action γ} {l : β → Action δ}
    {r r' : Run} (hab : Agree stop S V (a.exec r) (b.exec r'))
    (hk : ∀ x y, V x y → Sim stop S W (k x) (l y)) :
    Agree stop S W ((a >>= k).exec r) ((b >>= l).exec r') := by
  rw [exec_bind, exec_bind]
  cases ha : a.exec r with
  | mk x r₁ =>
    cases hb : b.exec r' with
    | mk y r₁' =>
      rw [ha, hb] at hab
      cases hab with
      | stopped hs => exact .stopped hs
      | ok hv hl₁ => exact hk _ _ hv _ _ hl₁
      | error hl₁ => exact .error hl₁

namespace Sim

variable {stop : EvalError → Prop} {S : Scope → Scope → Prop} {V : α → β → Prop}
  {W : γ → δ → Prop}

theorem pure {a : α} {b : β} (h : V a b) : Sim stop S V (pure a) (pure b) :=
  fun _ _ hl => .ok h hl

theorem bind {a : Action α} {b : Action β} {k : α → Action γ} {l : β → Action δ}
    (h : Sim stop S V a b) (hk : ∀ x y, V x y → Sim stop S W (k x) (l y)) :
    Sim stop S W (a >>= k) (b >>= l) :=
  fun r r' hl => (h r r' hl).bind hk

theorem poll : Sim stop S Eq poll poll := by
  intro r r' hl
  rw [exec_poll, exec_poll, ← hl.raised]
  by_cases h : r.raised
  · rw [if_pos h, if_pos h]
    exact .error ⟨hl.scope, rfl⟩
  · rw [if_neg h, if_neg h]
    exact .ok rfl hl

theorem mapM {A : γ → δ → Prop} {f : γ → Action α} {g : δ → Action β} {xs : List γ} {ys : List δ}
    (hx : List.Forall₂ A xs ys) (h : ∀ x y, A x y → Sim stop S V (f x) (g y)) :
    Sim stop S (List.Forall₂ V) (xs.mapM f) (ys.mapM g) := by
  induction hx with
  | nil =>
    rw [List.mapM_nil, List.mapM_nil]
    exact Sim.pure .nil
  | cons hxy _ ih =>
    rw [List.mapM_cons, List.mapM_cons]
    refine (h _ _ hxy).bind fun a b hab => ?_
    exact ih.bind fun as bs habs => Sim.pure (.cons hab habs)

end Sim

end Action

end ChartLisp
