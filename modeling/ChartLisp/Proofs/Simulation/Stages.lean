import ChartLisp.Proofs.Simulation.Action
import Mathlib.Order.Basic

/-!
# Two actions side by side, in stages

What belongs together on two sides can depend on what has happened so far.  A stage says how far
the comparison has come; stages are ordered, and what is related at one stage stays related at the
later ones.

* `Comparison W`   the scopes that belong together at each stage, and the errors that end the
                   comparison on one side or on the other
* `Agree`          outcomes with the states they leave, which belong together at some later stage
* `Sim`            agreement from all states that belong together, now or later
* `Sim.bind`, `Sim.mapM`, `Sim.inScope`, …   one rule for each way an action is put together
* `plain_sim_iff`  with a single stage, what `Action.Sim` says
-/

namespace ChartLisp

open ChartLisp.Action (Linked)

structure Comparison (W : Type) where
  /-- errors of the first action after which nothing is said about the second -/
  stop : EvalError → Prop
  /-- errors of the second action after which nothing is said about the first -/
  drop : EvalError → Prop
  /-- the scopes that belong together at a stage -/
  scopes : W → Scope → Scope → Prop

namespace Comparison

variable {α β γ δ W : Type} (C : Comparison W)

/-- both succeed with related results, or both fail alike, or one fails in a way that ends the
comparison -/
inductive Outcome (V : α → β → Prop) : Except EvalError α → Except EvalError β → Prop where
  | first {e : EvalError} {y : Except EvalError β} (h : C.stop e) : Outcome V (.error e) y
  | second {e : EvalError} {x : Except EvalError α} (h : C.drop e) : Outcome V x (.error e)
  | ok {a : α} {b : β} (h : V a b) : Outcome V (.ok a) (.ok b)
  | error (e : EvalError) : Outcome V (.error e) (.error e)

variable {C}

theorem Outcome.imp {V U : α → β → Prop} (hVU : ∀ a b, V a b → U a b) {x : Except EvalError α}
    {y : Except EvalError β} (h : C.Outcome V x y) : C.Outcome U x y := by
  cases h with
  | first hs => exact .first hs
  | second hd => exact .second hd
  | ok hv => exact .ok (hVU _ _ hv)
  | error e => exact .error e

/-- what is done with the values of two outcomes does not change where they stop -/
theorem Outcome.of_map {V : γ → δ → Prop} {f : α → γ} {g : β → δ} {x : Except EvalError α}
    {y : Except EvalError β} (h : C.Outcome V (x.map f) (y.map g)) :
    C.Outcome (fun _ _ => True) x y := by
  cases x with
  | ok a =>
    cases y with
    | ok b => exact .ok trivial
    | error e =>
      cases h with
      | second hd => exact .second hd
  | error e =>
    cases y with
    | ok b =>
      cases h with
      | first hs => exact .first hs
    | error e' =>
      cases h with
      | first hs => exact .first hs
      | second hd => exact .second hd
      | error => exact .error e

theorem Outcome.same {V : α → β → Prop} {x : Except EvalError α} {y : Except EvalError β}
    (h : SameOutcome V x y) : C.Outcome V x y := by
  cases h with
  | ok hv => exact .ok hv
  | error e => exact .error e

variable (C) [Preorder W]

inductive Agree (V : W → α → β → Prop) (w : W) :
    Except EvalError α × Run → Except EvalError β × Run → Prop where
  | first {e : EvalError} {r : Run} {y : Except EvalError β × Run} (h : C.stop e) :
      Agree V w (.error e, r) y
  | second {e : EvalError} {r : Run} {x : Except EvalError α × Run} (h : C.drop e) :
      Agree V w x (.error e, r)
  | ok {w' : W} {a : α} {b : β} {r r' : Run} (hw : w ≤ w') (hv : V w' a b)
      (hl : Linked (C.scopes w') r r') : Agree V w (.ok a, r) (.ok b, r')
  | error {w' : W} {e : EvalError} {r r' : Run} (hw : w ≤ w') (hl : Linked (C.scopes w') r r') :
      Agree V w (.error e, r) (.error e, r')

/-- the actions agree from all states that belong together at this stage or a later one -/
def Sim (V : W → α → β → Prop) (w : W) (a : Action α) (b : Action β) : Prop :=
  ∀ w' r r', w ≤ w' → Linked (C.scopes w') r r' → C.Agree V w' (a.exec r) (b.exec r')

variable {C} {V : W → α → β → Prop} {U : W → γ → δ → Prop} {w w' : W}

theorem Agree.earlier {x : Except EvalError α × Run} {y : Except EvalError β × Run} (hw : w ≤ w')
    (h : C.Agree V w' x y) : C.Agree V w x y := by
  cases h with
  | first hs => exact .first hs
  | second hd => exact .second hd
  | ok hw' hv hl => exact .ok (hw.trans hw') hv hl
  | error hw' hl => exact .error (hw.trans hw') hl

/-- the outcomes without the states they leave -/
theorem Agree.outcome {x : Except EvalError α × Run} {y : Except EvalError β × Run}
    (h : C.Agree V w x y) : C.Outcome (fun a b => ∃ w', V w' a b) x.1 y.1 := by
  cases h with
  | first hs => exact .first hs
  | second hd => exact .second hd
  | ok _ hv _ => exact .ok ⟨_, hv⟩
  | error _ _ => exact .error _

namespace Sim

theorem later {a : Action α} {b : Action β} (hw : w ≤ w') (h : C.Sim V w a b) :
    C.Sim V w' a b :=
  fun w₁ r r' hw₁ hl => h w₁ r r' (hw.trans hw₁) hl

theorem pure {a : α} {b : β} (h : ∀ w', w ≤ w' → V w' a b) : C.Sim V w (pure a) (pure b) :=
  fun w' _ _ hw hl => .ok le_rfl (h w' hw) hl

theorem throw (e : EvalError) : C.Sim V w (throw e) (throw e) :=
  fun _ _ _ _ hl => .error le_rfl hl

theorem bind {a : Action α} {b : Action β} {k : α → Action γ} {l : β → Action δ}
    (h : C.Sim V w a b) (hk : ∀ w' x y, w ≤ w' → V w' x y → C.Sim U w' (k x) (l y)) :
    C.Sim U w (a >>= k) (b >>= l) := by
  intro w₁ r r' hw₁ hl
  have hab := h w₁ r r' hw₁ hl
  rw [Action.exec_bind, Action.exec_bind]
  generalize a.exec r = x at hab ⊢
  generalize b.exec r' = y at hab ⊢
  cases hab with
  | first hs => exact .first hs
  | @second e _ x hd =>
    show C.Agree U w₁ _ (.error e, _)
    exact .second hd
  | @ok w₂ x y _ _ hw₂ hv hl₂ =>
    exact (hk w₂ x y (hw₁.trans hw₂) hv w₂ _ _ le_rfl hl₂).earlier hw₂
  | error hw₂ hl₂ => exact .error hw₂ hl₂

/-- what follows a look at the state may use that the two states belong together -/
theorem get_bind {k : Run → Action γ} {l : Run → Action δ}
    (h : ∀ w' r r', w ≤ w' → Linked (C.scopes w') r r' → C.Sim U w' (k r) (l r')) :
    C.Sim U w (get >>= k) (get >>= l) := by
  intro w₁ r r' hw₁ hl
  rw [Action.exec_get_bind, Action.exec_get_bind]
  exact h w₁ r r' hw₁ hl w₁ r r' le_rfl hl

theorem record (v v' : Event) : C.Sim (fun _ => Eq) w (Action.record v) (Action.record v') :=
  fun _ _ _ _ hl => .ok le_rfl rfl ⟨hl.scope, hl.raised⟩

theorem recordAll (vs vs' : List Event) :
    C.Sim (fun _ => Eq) w (Action.recordAll vs) (Action.recordAll vs') := by
  intro w₁ r r' _ hl
  rw [Action.exec_recordAll, Action.exec_recordAll]
  exact .ok le_rfl rfl ⟨hl.scope, hl.raised⟩

theorem ofExcept {x : Except EvalError α} {y : Except EvalError β}
    (h : ∀ w', w ≤ w' → C.Outcome (V w') x y) :
    C.Sim V w (Action.ofExcept x) (Action.ofExcept y) := by
  intro w₁ r r' hw₁ hl
  rw [Action.exec_ofExcept, Action.exec_ofExcept]
  cases h w₁ hw₁ with
  | first hs => exact .first hs
  | second hd => exact .second hd
  | ok hv => exact .ok le_rfl hv hl
  | error e => exact .error le_rfl hl

/-- The scopes that the actions come back to are those they left.  What was related at the stages in
between must be so where they come back to. -/
theorem inScope (inner : W) {u u' : Scope} {a : Action α} {b : Action β}
    (hu : C.scopes inner u u') (h : C.Sim V inner a b)
    (hback : ∀ w' w₁ x y, w ≤ w' → inner ≤ w₁ → V w₁ x y → V w' x y) :
    C.Sim V w (Action.inScope u a) (Action.inScope u' b) := by
  intro w₁ r r' hw₁ hl
  have hab := h inner { r with scope := u } { r' with scope := u' } le_rfl ⟨hu, hl.raised⟩
  rw [Action.exec_inScope, Action.exec_inScope]
  generalize a.exec { r with scope := u } = x at hab ⊢
  generalize b.exec { r' with scope := u' } = y at hab ⊢
  cases hab with
  | first hs => exact .first hs
  | second hd => exact .second hd
  | ok hw₂ hv hl₂ =>
    exact .ok le_rfl (hback w₁ _ _ _ hw₁ hw₂ hv) ⟨hl.scope, hl₂.raised⟩
  | error _ hl₂ => exact .error le_rfl ⟨hl.scope, hl₂.raised⟩

theorem shielded {a : Action α} {b : Action β} (h : C.Sim V w a b) :
    C.Sim V w (Action.shielded a) (Action.shielded b) := by
  intro w₁ r r' hw₁ hl
  have hab := h w₁ { r with raised := false } { r' with raised := false } hw₁ ⟨hl.scope, rfl⟩
  rw [Action.exec_shielded, Action.exec_shielded]
  generalize a.exec { r with raised := false } = x at hab ⊢
  generalize b.exec { r' with raised := false } = y at hab ⊢
  cases hab with
  | first hs => exact .first hs
  | second hd => exact .second hd
  | ok hw₂ hv hl₂ => exact .ok hw₂ hv ⟨hl₂.scope, hl.raised⟩
  | error hw₂ hl₂ => exact .error hw₂ ⟨hl₂.scope, hl.raised⟩

theorem poll : C.Sim (fun _ => Eq) w Action.poll Action.poll := by
  intro w₁ r r' _ hl
  rw [Action.exec_poll, Action.exec_poll, ← hl.raised]
  by_cases h : r.raised
  · rw [if_pos h, if_pos h]
    exact .error le_rfl ⟨hl.scope, rfl⟩
  · rw [if_neg h, if_neg h]
    exact .ok le_rfl rfl hl

theorem mapM {A : W → γ → δ → Prop} {f : γ → Action α} {g : δ → Action β}
    (hlater : ∀ {w w' a b}, w ≤ w' → V w a b → V w' a b)
    (hA : ∀ {w w' x y}, w ≤ w' → A w x y → A w' x y)
    (h : ∀ w x y, A w x y → C.Sim V w (f x) (g y)) {xs : List γ} {ys : List δ}
    (hx : List.Forall₂ (A w) xs ys) :
    C.Sim (fun w => List.Forall₂ (V w)) w (xs.mapM f) (ys.mapM g) := by
  induction xs generalizing w ys with
  | nil =>
    cases hx
    rw [List.mapM_nil, List.mapM_nil]
    exact Sim.pure fun _ _ => .nil
  | cons x xs ih =>
    cases hx with
    | cons hxy hx =>
      rw [List.mapM_cons, List.mapM_cons]
      refine (h w _ _ hxy).bind fun w₁ a b hw₁ hab => ?_
      refine (ih (hx.imp fun _ _ => hA hw₁)).bind fun w₂ as bs hw₂ habs => ?_
      exact Sim.pure fun w₃ hw₃ => .cons (hlater (hw₂.trans hw₃) hab)
        (habs.imp fun _ _ => hlater hw₃)

theorem sampling {f g : Double → Action Double} {s : Plot.Sampling α} {s' : Plot.Sampling β}
    (hlater : ∀ {w w' a b}, w ≤ w' → V w a b → V w' a b) (hs : Plot.Sampling.Rel (V w) s s')
    (h : ∀ x, C.Sim (fun _ => Eq) w (f x) (g x)) :
    C.Sim V w (Action.sampling f s) (Action.sampling g s') := by
  induction hs with
  | done hv => exact Sim.pure fun _ hw => hlater hw hv
  | fail e => exact Sim.throw e
  | note v v' _ ih => exact (Sim.record v v').bind fun _ _ _ hw _ => ih.later hw
  | ask x _ ih =>
    refine (h x).bind fun w' y y' hw hy => ?_
    subst hy
    exact (ih y).later hw

end Sim

/-! ## A single stage -/

/-- the stage of a comparison in which nothing changes -/
inductive Single where
  | stage

instance : Preorder Single where
  le _ _ := True
  le_refl _ := trivial
  le_trans _ _ _ _ _ := trivial

/-- the comparison that nothing but the first action ends, with the same scopes throughout -/
def plain (stop : EvalError → Prop) (S : Scope → Scope → Prop) : Comparison Single :=
  ⟨stop, fun _ => False, fun _ => S⟩

theorem plain_agree_iff {stop : EvalError → Prop} {S : Scope → Scope → Prop} {V : α → β → Prop}
    {x : Except EvalError α × Run} {y : Except EvalError β × Run} :
    (plain stop S).Agree (fun _ => V) .stage x y ↔ Action.Agree stop S V x y := by
  constructor
  · intro h
    cases h with
    | first hs => exact .stopped hs
    | second hd => exact hd.elim
    | ok _ hv hl => exact .ok hv hl
    | error _ hl => exact .error hl
  · intro h
    cases h with
    | stopped hs => exact .first hs
    | ok hv hl => exact .ok (le_refl Single.stage) hv hl
    | error hl => exact .error (le_refl Single.stage) hl

theorem plain_sim_iff {stop : EvalError → Prop} {S : Scope → Scope → Prop} {V : α → β → Prop}
    {a : Action α} {b : Action β} :
    (plain stop S).Sim (fun _ => V) .stage a b ↔ Action.Sim stop S V a b :=
  ⟨fun h r r' hl => plain_agree_iff.mp (h .stage r r' le_rfl hl),
    fun h _ r r' _ hl => plain_agree_iff.mpr (h r r' hl)⟩

end Comparison

end ChartLisp
