import ChartLisp.Proofs.Application
import ChartLisp.Proofs.Properties

/-!
# Data stand for themselves

Values and code are one kind of tree, so a value can be evaluated again.  Nothing, numbers, complex
numbers and strings are their own values, and a list is a call of `list` with its elements: what
comes back is the datum without its properties.  Each level of a datum takes one level of the
evaluation.

* `Expr.Datum`        plain data and lists of data, with any properties
* `exec_eval_datum`   a datum evaluates to itself if it is not higher than there is room
* `evaluate_datum`    so a value that is a datum stays as it is, its properties apart
-/

namespace ChartLisp

/-- data with strings of any kind -/
abbrev Expr.Datum (e : Expr) : Prop := e.DatumOf fun _ => True

/-! ## Evaluating a datum -/

/-- what a datum evaluates to with `depth` levels left -/
def datumOutcome (depth : Nat) (v : Expr) : Except EvalError Expr :=
  if v.height ≤ depth then .ok v.bare else .error .tooDeep

/-- the elements of a list, one after the other: the first one that is too high ends it -/
theorem exec_mapM_datum {depth : Nat} {es : List Expr} {r : Run} (hr : r.raised = false)
    (h : ∀ e ∈ es, ∀ t : Run, t.raised = false →
      ∃ log, (eval depth e).exec t = (datumOutcome depth e, { t with log := log })) :
    ∃ log, (es.mapM (eval depth)).exec r =
      (if Expr.heightAll es ≤ depth then .ok (es.map Expr.bare) else .error .tooDeep,
        { r with log := log }) := by
  induction es generalizing r with
  | nil => exact ⟨r.log, rfl⟩
  | cons e es ih =>
    obtain ⟨he, hes⟩ := List.forall_mem_cons.mp h
    obtain ⟨log, hexec⟩ := he r hr
    rw [List.mapM_cons, Action.exec_bind, hexec, datumOutcome, Expr.heightAll]
    by_cases hfit : e.height ≤ depth
    · obtain ⟨log', hrest⟩ := ih (r := { r with log := log }) hr hes
      refine ⟨log', ?_⟩
      rw [if_pos hfit]
      show (es.mapM (eval depth) >>= fun vs => pure (e.bare :: vs)).exec { r with log := log } = _
      rw [Action.exec_bind, hrest]
      by_cases hall : Expr.heightAll es ≤ depth
      · rw [if_pos hall, if_pos (Nat.max_le.mpr ⟨hfit, hall⟩)]
        rfl
      · rw [if_neg hall, if_neg fun hmax => hall (Nat.max_le.mp hmax).2]
    · refine ⟨log, ?_⟩
      rw [if_neg hfit, if_neg fun hmax => hfit (Nat.max_le.mp hmax).1]

/-- a leaf takes one level and is its own value -/
theorem exec_node_leaf (depth : Nat) {a : Atom} (ha : a.symbol? = none)
    (props : List (String × Expr)) (r : Run) :
    ∃ log, (Eval.node (eval depth) (Eval.call (eval depth)) ⟨a, [], props, [], false⟩).exec r =
      (datumOutcome (depth + 1) ⟨a, [], props, [], false⟩, { r with log := log }) := by
  refine ⟨r.log, ?_⟩
  have hfit : (⟨a, [], props, [], false⟩ : Expr).height ≤ depth + 1 :=
    Expr.height_le_succ.mpr (List.forall_mem_nil _)
  rw [datumOutcome, if_pos hfit]
  cases a with
  | symbol name => cases ha
  | none => rfl
  | number x => rfl
  | complex z => rfl
  | string t => rfl

/-- With room for its height a datum evaluates to itself, and with less to nothing. -/
theorem exec_eval_datum (depth : Nat) {v : Expr} (hv : v.Datum) {r : Run}
    (hr : r.raised = false) :
    ∃ log, (eval depth v).exec r = (datumOutcome depth v, { r with log := log }) := by
  -- by the levels that are left: the elements of a list have one level less than the list
  induction depth generalizing v r with
  | zero =>
    refine ⟨.depthReached :: r.log, ?_⟩
    have hhigh : ¬ v.height ≤ 0 := Nat.not_le.mpr v.height_pos
    rw [exec_eval_zero v hr, datumOutcome, if_neg hhigh]
  | succ depth ih =>
    rw [exec_eval_succ depth v hr]
    cases hv with
    | nothing props => exact exec_node_leaf depth rfl props r
    | atom ha props => cases ha <;> exact exec_node_leaf depth rfl props r
    | @list es hes props =>
      obtain ⟨log, hmap⟩ := exec_mapM_datum hr fun e he t ht => ih (hes e he) ht
      have hheight : (⟨.symbol Expr.listName, es, props, [], false⟩ : Expr).height ≤ depth + 1 ↔
          Expr.heightAll es ≤ depth := by rw [Expr.height_eq, Nat.add_le_add_iff_right]
      show ∃ log', (Eval.node _ _ (Expr.list es)).exec r = (_, { r with log := log' })
      rw [Eval.node_list, Action.exec_bind, hmap, datumOutcome]
      by_cases hall : Expr.heightAll es ≤ depth
      · refine ⟨.callingBuiltin Expr.listName (es.map Expr.bare).length :: log, ?_⟩
        rw [if_pos hall, if_pos (hheight.mpr hall), Expr.bare_eq]
        rfl
      · refine ⟨log, ?_⟩
        rw [if_neg hall, if_neg fun hc => hall (hheight.mp hc)]

/-- A datum, evaluated in any scope, is its own value without its properties if it is not higher
than the depth limit, and ends at the limit if it is; the scope stays as it was.  So the value of a
program, if it is a datum and not too high, is still the same when it is evaluated next, its
properties apart. -/
theorem evaluate_datum :
    (∀ v : Expr, v.Datum → ∀ r : Run, r.raised = false →
      (v.height ≤ depthLimit → ((evaluate v).exec r).1 = .ok v.bare) ∧
      (depthLimit < v.height → ((evaluate v).exec r).1 = .error .tooDeep) ∧
      ((evaluate v).exec r).2.scope = r.scope) ∧
    (∀ (program v : Expr) (r r' : Run), r.raised = false →
      (evaluate program).exec r = (.ok v, r') → v.Datum → v.height ≤ depthLimit →
      ((evaluate v).exec r').1 = .ok v.bare ∧ ((evaluate v).exec r').2.scope = r'.scope) := by
  have hdatum : ∀ v : Expr, v.Datum → ∀ r : Run, r.raised = false →
      (v.height ≤ depthLimit → ((evaluate v).exec r).1 = .ok v.bare) ∧
      (depthLimit < v.height → ((evaluate v).exec r).1 = .error .tooDeep) ∧
      ((evaluate v).exec r).2.scope = r.scope := by
    intro v hv r hr
    obtain ⟨log, hexec⟩ := exec_eval_datum depthLimit hv hr
    rw [evaluate, hexec, datumOutcome]
    exact ⟨fun hfit => if_pos hfit, fun hhigh => if_neg (Nat.not_le.mpr hhigh), rfl⟩
  refine ⟨hdatum, fun program v r r' hr hrun hv hfit => ?_⟩
  -- no interrupt comes up in the first evaluation
  have hcalm := ((eval_course depthLimit program r).raised hr).1
  rw [evaluate] at hrun
  rw [hrun] at hcalm
  obtain ⟨hself, _, hleft⟩ := hdatum v hv r' hcalm
  exact ⟨hself hfit, hleft⟩

end ChartLisp
