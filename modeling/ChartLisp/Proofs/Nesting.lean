import ChartLisp.Proofs.Grammar
import ChartLisp.Proofs.Layout
import ChartLisp.Proofs.Shape
import ChartLisp.Proofs.Simulation.Invariant

/-!
# Programs without procedures of their own never nest too deep

A program that builds no closure, run where there is none, calls built-in procedures only.  Then an
evaluation nests as deep as its expression is high, and sources are not high enough to reach the
limit.

* `Program.Node.height_le`     a node with at most `d` nodes open at once has height at most `d + 1`
* `Program.height_le_of_read`  so every program is within the limit of the parser and one leaf
* `Expr.ClosureFree`           no closure in a value, in its properties or in what it captured
* `closureFree_invariant`      evaluation keeps scopes and values free of closures
* `Eval.callNative`            calls of built-in procedures, with no way into a closure
* `eval_shallow`               as many levels as the expression is high are enough for it
* `evaluate_ne_tooDeep`        the limit of the parser keeps below the limit of the evaluation
-/

namespace ChartLisp

open ChartLisp.Action (Sim Closed)

/-! ## The height of programs -/

namespace Program

mutual

theorem Node.height_le {d : Nat} {ts : List Placed} {e : Expr} :
    Node d ts e → e.height ≤ d + 1
  | .mk _ _ _ hi => Expr.height_le_succ.mpr hi.height_le

theorem Items.height_le {d : Nat} {ts : List Placed} {es : List Expr} :
    Items d ts es → ∀ e ∈ es, e.height ≤ d + 1
  | .nil => List.forall_mem_nil _
  | .atom _ hi =>
    List.forall_mem_cons.mpr ⟨Expr.height_le_succ.mpr (List.forall_mem_nil _), hi.height_le⟩
  | .node hn hi => List.forall_mem_cons.mpr ⟨hn.height_le, hi.height_le⟩

end

theorem node_of_read {source : String} {e : Expr} (h : read source = .ok e) :
    ∃ ts, Token.scan source = .ok ts ∧ Node nestingLimit ts e := by
  obtain ⟨ts, hscan, -⟩ := Token.scan_eq_ok source
  rw [read_eq_parse hscan] at h
  have hreached : Reached ts (.done e) :=
    run_reached (.inside .nil) (Token.scan_ne_blank hscan) (parse_eq_ok.mp h)
  refine ⟨ts, hscan, ?_⟩
  cases hreached with
  | done hn => exact hn

theorem height_le_of_read {source : String} {e : Expr} (h : read source = .ok e) :
    e.height ≤ nestingLimit + 1 := by
  obtain ⟨ts, -, hnode⟩ := node_of_read h
  exact hnode.height_le

end Program

/-! ## Values without closures -/

inductive Expr.ClosureFree : Expr → Prop where
  | intro {e : Expr} (hl : e.isLambda = false) (ht : ∀ c ∈ e.tail, ClosureFree c)
      (hp : ∀ p ∈ e.properties, ClosureFree p.2) (hc : ∀ p ∈ e.captured, ClosureFree p.2) :
      ClosureFree e

namespace Expr.ClosureFree

variable {e v : Expr}

theorem isLambda (h : e.ClosureFree) : e.isLambda = false := by
  cases h with
  | intro hl _ _ _ => exact hl

theorem tail (h : e.ClosureFree) : ∀ c ∈ e.tail, c.ClosureFree := by
  cases h with
  | intro _ ht _ _ => exact ht

theorem node {a : Atom} {es : List Expr} (ha : a.symbol? ≠ some lambdaName)
    (hes : ∀ e ∈ es, e.ClosureFree) : (Expr.node a es).ClosureFree :=
  .intro (beq_eq_false_iff_ne.mpr ha) hes (List.forall_mem_nil _) (List.forall_mem_nil _)

theorem leaf {a : Atom} (ha : a.symbol? = none) : (Expr.leaf a).ClosureFree :=
  node (by simp [ha]) (List.forall_mem_nil _)

theorem setProperty (h : e.ClosureFree) (hv : v.ClosureFree) (key : String) :
    (e.setProperty key v).ClosureFree := by
  cases h with
  | intro hl ht hp hc =>
    refine .intro hl ht (fun p hmem => ?_) hc
    rcases Bindings.mem_insert hmem with rfl | hmem
    · exact hv
    · exact hp p hmem

theorem property (h : e.ClosureFree) (key : String) : (e.property key).ClosureFree := by
  unfold Expr.property
  cases hk : Bindings.get? e.properties key with
  | none => exact leaf rfl
  | some v =>
    cases h with
    | intro _ _ hp _ => exact hp (key, v) (Bindings.mem_of_get? hk)

theorem elements (h : e.ClosureFree) {es : List Expr} (he : e.elements? = some es) :
    ∀ x ∈ es, x.ClosureFree := by
  unfold elements? at he
  split at he
  · cases he
    exact h.tail
  · cases he

end Expr.ClosureFree

/-! ## Evaluation builds no closures out of nothing -/

theorem closureFree_invariant :
    Invariant (Expr.Avoids .lambda) Expr.ClosureFree (Scope.Every Expr.ClosureFree) where
  tail h := h.tail
  atom _ ha := .leaf ha
  list hall := .node (by decide) hall
  elements hf he := hf.elements he
  setProperty key ht hv := ht.setProperty hv key
  property key _ _ ht := ht.property key
  lookup hs hv := hs.lookup hv
  define {_ name _} hs _ hv := hs.insert name hv
  lambda he hform _ _ _ := absurd hform he.form?_ne
  code hc hl := by
    rw [hc.isLambda] at hl
    cases hl
  enter _ hc hl := by
    rw [hc.isLambda] at hl
    cases hl

/-- applies built-in procedures; closures are refused -/
def Eval.callNative (_ev : Expr → Action Expr) : Eval.Invoke
  | name, .builtin b, args => callBuiltin name b args
  | name, .closure _, _ => throw (.notProcedure name)

/-- where there are no closures it does not matter what is done with them -/
theorem evalWith_callNative {e : Expr} (he : e.Avoids .lambda) {r : Run}
    (hr : r.scope.Every Expr.ClosureFree) (depth : Nat) :
    ((evalWith Eval.callNative depth e).exec r).1 = ((eval depth e).exec r).1 := by
  have hbuiltin : ∀ ev name b args,
      Eval.callNative ev name (.builtin b) args = Eval.callBuiltin name b args :=
    fun _ _ _ _ => rfl
  refine (closureFree_invariant.evalWith_eq hbuiltin (fun _ _ c _ hc hl => ?_) he hr depth).1
  rw [hc.isLambda] at hl
  cases hl

/-! ## Evaluation without closures nests as deep as its expression -/

/-- never ends at the depth limit -/
def Action.Shallow {α : Type} (a : Action α) : Prop := ∀ r, (a.exec r).1 ≠ .error .tooDeep

namespace Action

theorem Shallow.bind {α β : Type} {a : Action α} {k : α → Action β} (h : Shallow a)
    (hk : ∀ x, Shallow (k x)) : Shallow (a >>= k) := by
  intro r
  have ha := h r
  rw [exec_bind]
  cases hx : a.exec r with
  | mk x r' =>
    rw [hx] at ha
    cases x with
    | error e => exact fun he => ha (congrArg Except.error (Except.error.inj he))
    | ok x => exact hk x r'

theorem shallow_closed : Closed fun _ a => Shallow a where
  pure _ _ := nofun
  throw h _ := by
    rintro ⟨⟩
    cases h
  bind := Shallow.bind
  get _ := nofun
  record _ _ := nofun
  shielded h r := h { r with raised := false }

theorem poll_shallow : Shallow poll := by
  intro r
  rw [exec_poll]
  split <;> exact nofun

theorem defining_shallow (name : String) (v : Expr) : Shallow (defining name v) := by
  intro r
  rw [exec_defining]
  cases hs : r.scope.define name v with
  | ok s => exact nofun
  | error e =>
    rintro ⟨⟩
    cases r.scope.define_ordinary name v _ hs

end Action

open ChartLisp.Action (Shallow shallow_closed poll_shallow defining_shallow)

theorem Eval.callNative_shallow (ev : Expr → Action Expr) (name : String) (p : Procedure)
    (args : List Expr) : Shallow (callNative ev name p args) := by
  cases p with
  | builtin b => exact shallow_closed.callBuiltin name b args
  | closure c => exact shallow_closed.throw rfl

theorem evalWith_callNative_shallow {depth : Nat} {e : Expr} (h : e.height ≤ depth) :
    Shallow (evalWith Eval.callNative depth e) := by
  induction depth generalizing e with
  | zero => exact absurd e.height_pos (by omega)
  | succ depth ih =>
    refine poll_shallow.bind fun _ => ?_
    refine shallow_closed.node (fun _ c hc => ih (Expr.height_le_succ.mp h c hc)) ?_ ?_
    · exact Eval.callNative_shallow _
    · exact fun _ _ name v _ _ => defining_shallow name v

theorem eval_shallow {e : Expr} (he : e.Avoids .lambda) {depth : Nat} (hd : e.height ≤ depth)
    {r : Run} (hr : r.scope.Every Expr.ClosureFree) :
    ((eval depth e).exec r).1 ≠ .error .tooDeep := by
  rw [← evalWith_callNative he hr]
  exact evalWith_callNative_shallow hd r

/-- A program that mentions no `lambda`, evaluated where no value holds a closure, does not reach
the depth limit. -/
theorem evaluate_ne_tooDeep {source : String} {e : Expr} (hread : Program.read source = .ok e)
    (he : e.Avoids .lambda) {r : Run} (hr : r.scope.Every Expr.ClosureFree) :
    ((evaluate e).exec r).1 ≠ .error .tooDeep := by
  have hheight : e.height ≤ depthLimit :=
    (Program.height_le_of_read hread).trans (by decide)
  exact eval_shallow he hheight hr

theorem Scope.fresh_closureFree : Scope.fresh.Every Expr.ClosureFree :=
  Scope.fresh_every fun _ => .leaf

/-- special forms over built-in procedures -/
def nestedForms : Expr :=
  Expr.node (.symbol "begin")
    [Expr.node (.symbol "define") [Expr.symbol "xs",
      Expr.node (.symbol "map") [Expr.symbol "sin", Expr.list [Expr.symbol "pi", Expr.symbol "e"]]],
    Expr.node (.symbol "apply") [Expr.symbol "+", Expr.symbol "xs"]]

def nestedFormsSource : String := "(begin (define xs (map sin (list pi e))) (apply + xs))"

theorem nestedForms_ne_tooDeep :
    Program.read nestedFormsSource = .ok nestedForms ∧ nestedForms.Avoids .lambda ∧
      Scope.fresh.Every Expr.ClosureFree ∧
      ((evaluate nestedForms).exec (Run.start Scope.fresh)).1 ≠ .error .tooDeep := by
  have hread : Program.read nestedFormsSource = .ok nestedForms := rfl
  have hlambda : nestedForms.Avoids .lambda := by
    simp [nestedForms, Expr.list, Expr.symbol, Expr.leaf, Expr.Avoids.node_iff, Expr.listName,
      Form.name]
  have hscope : (Run.start Scope.fresh).scope.Every Expr.ClosureFree := Scope.fresh_closureFree
  exact ⟨hread, hlambda, hscope, evaluate_ne_tooDeep hread hlambda hscope⟩

end ChartLisp
