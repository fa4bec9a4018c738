import ChartLisp.Proofs.Exec
import ChartLisp.Proofs.Failure

/-!
# Properties of actions that every special form keeps

Evaluation is put together from few kinds of steps.  A property of actions that these steps have and
that sequences keep is a property of every special form and of every application, if the children
of the form and the procedures it applies have it.

* `Action.Closed K`     what such a property `K` must satisfy
* `Action.defining`     the step that binds a name, which no other step resembles
* `Closed.node`         one node, from its children, its procedure calls and what it defines
* `Closed.call`         one procedure call, from the evaluation of the procedure's body
-/

namespace ChartLisp

/-! ## Heads -/

theorem Atom.eq_symbol {a : Atom} {name : String} (h : a.symbol? = some name) :
    a = .symbol name := by
  cases a with
  | symbol t => cases h; rfl
  | none => cases h
  | number x => cases h
  | complex z => cases h
  | string t => cases h

theorem Expr.head_of_symbol? {e : Expr} {name : String} (h : e.symbol? = some name) :
    e.head = .symbol name := by
  unfold Expr.symbol? at h
  split at h
  · exact Atom.eq_symbol h
  · cases h

theorem Eval.head_eq_of_form? {e : Expr} {form : Form} (h : form? e = some form) :
    e.head = .symbol form.name := by
  unfold form? at h
  obtain ⟨s, hs, hf⟩ := Option.bind_eq_some_iff.mp h
  have hname : form.name = s := by simpa using List.find?_some hf
  rw [hname, Atom.eq_symbol hs]

theorem Eval.form?_of_head {e : Expr} {form : Form} (h : e.head = .symbol form.name) :
    form? e = some form := by
  unfold form?
  rw [h]
  cases form <;> rfl

/-! ## Actions -/

namespace Action

/-- binds the name in the innermost scope and gives its value -/
def defining (name : String) (value : Expr) : Action Expr := do
  let scope ← ofExcept ((← get).scope.define name value)
  modify fun r => { r with scope := scope }
  return value

theorem exec_defining (name : String) (v : Expr) (r : Run) :
    (defining name v).exec r =
      match r.scope.define name v with
      | .ok s => (.ok v, { r with scope := s })
      | .error e => (.error e, r) := by
  unfold defining
  rw [exec_get_bind, exec_bind, exec_ofExcept]
  cases r.scope.define name v <;> rfl

structure Closed (K : (α : Type) → Action α → Prop) : Prop where
  pure {α : Type} (a : α) : K α (pure a)
  throw {α : Type} {e : EvalError} : e.isOrdinary = true → K α (throw e)
  bind {α β : Type} {a : Action α} {k : α → Action β} :
    K α a → (∀ x, K β (k x)) → K β (a >>= k)
  get : K Run get
  record {v : Event} : v.isPlain = true → K Unit (record v)
  shielded {α : Type} {a : Action α} : K α a → K α (shielded a)

namespace Closed

variable {K : (α : Type) → Action α → Prop} (closed : Closed K)
include closed

theorem ofExcept {α : Type} {x : Except EvalError α} (h : Ordinary x) : K α (ofExcept x) := by
  cases x with
  | ok a => exact closed.pure a
  | error e => exact closed.throw (h e rfl)

theorem recordAll {vs : List Event} (h : ∀ v ∈ vs, v.isPlain = true) : K Unit (recordAll vs) := by
  induction vs with
  | nil => exact closed.pure ()
  | cons v vs ih =>
    refine closed.bind (closed.record (h v List.mem_cons_self)) fun _ => ?_
    exact ih fun w hw => h w (List.mem_cons_of_mem v hw)

theorem mapM {α β : Type} {f : α → Action β} {xs : List α} (h : ∀ x ∈ xs, K β (f x)) :
    K (List β) (xs.mapM f) := by
  induction xs with
  | nil =>
    rw [List.mapM_nil]
    exact closed.pure []
  | cons x xs ih =>
    rw [List.mapM_cons]
    refine closed.bind (h x List.mem_cons_self) fun y => ?_
    refine closed.bind (ih fun z hz => h z (List.mem_cons_of_mem x hz)) fun ys => ?_
    exact closed.pure (y :: ys)

theorem sampling {α : Type} {f : Double → Action Double} {s : Plot.Sampling α} (hs : s.Ordinary)
    (h : ∀ x, K Double (f x)) : K α (sampling f s) := by
  induction hs with
  | done a => exact closed.pure a
  | fail he => exact closed.throw he
  | note hv _ ih => exact closed.bind (closed.record hv) fun _ => ih
  | ask x _ ih => exact closed.bind (h x) ih

end Closed

end Action

namespace Action.Closed

open ChartLisp.Eval

variable {K : (α : Type) → Action α → Prop} (closed : Closed K)
include closed

/-! ## Procedures -/

theorem procedureNamed (name : String) : K Procedure (procedureNamed name) :=
  closed.bind closed.get fun r => closed.ofExcept (r.scope.procedure_ordinary name)

theorem callBuiltin (name : String) (b : Builtin) (args : List Expr) :
    K Expr (callBuiltin name b args) := by
  refine closed.bind (closed.record rfl) fun _ => ?_
  refine closed.bind (closed.ofExcept (b.call_ordinary args)) fun v => ?_
  exact closed.bind (closed.recordAll (b.events_plain args v)) fun _ => closed.pure v

theorem call {ev : Expr → Action Expr} (hbody : ∀ s body, K Expr (inScope s (ev body)))
    (name : String) (p : Procedure) (args : List Expr) : K Expr (call ev name p args) := by
  cases p with
  | builtin b => exact closed.callBuiltin name b args
  | closure c =>
    show K Expr (callClosure ev name c args)
    unfold callClosure
    split
    · split
      · exact closed.throw rfl
      · refine closed.bind (closed.record rfl) fun _ => ?_
        refine closed.bind closed.get fun r => ?_
        refine closed.bind (closed.ofExcept ?_) fun s => hbody s _
        exact Closure.bindArguments_ordinary _ _ _
    · exact closed.throw rfl

theorem targetProcedure (t : Target) : K (String × Procedure) t.procedure := by
  cases t with
  | named name => exact closed.bind (closed.procedureNamed name) fun p => closed.pure (name, p)
  | value e =>
    show K _ (if e.isLambda then _ else _)
    split
    · exact closed.pure _
    · exact closed.throw rfl

/-! ## Atoms and closures -/

theorem atomValue (a : Atom) : K Expr (atomValue a) := by
  cases a with
  | symbol name =>
    refine closed.bind closed.get fun r => ?_
    cases r.scope.lookup name with
    | some v => exact closed.pure v
    | none => exact closed.throw rfl
  | none => exact closed.pure _
  | number x => exact closed.pure _
  | complex z => exact closed.pure _
  | string t => exact closed.pure _

theorem lambda (es : List Expr) : K Expr (lambda es) := by
  unfold Eval.lambda
  split
  · refine closed.bind (closed.ofExcept (parameterNames_ordinary _ _)) fun names => ?_
    exact closed.bind closed.get fun r => closed.pure _
  · exact closed.throw rfl

/-! ## Forms that evaluate their children -/

section
variable {ev : Expr → Action Expr} {es : List Expr} (h : ∀ e ∈ es, K Expr (ev e))
include h

theorem begin : K Expr (begin ev es) := by
  induction es with
  | nil => exact closed.throw rfl
  | cons e es ih =>
    cases es with
    | nil => exact h e List.mem_cons_self
    | cons e' es =>
      refine closed.bind (h e List.mem_cons_self) fun _ => ?_
      exact ih fun x hx => h x (List.mem_cons_of_mem e hx)

theorem define (hd : ∀ target name v, es.head? = some target → target.symbol? = some name →
    K Expr (defining name v)) : K Expr (define ev es) := by
  unfold Eval.define
  split
  · rename_i target e
    split
    · exact closed.throw rfl
    · rename_i name hn
      refine closed.bind closed.get fun r => ?_
      refine closed.bind (closed.ofExcept (r.scope.requireUnbound_ordinary name)) fun _ => ?_
      refine closed.bind (h e (List.mem_cons_of_mem _ List.mem_cons_self)) fun v => ?_
      exact closed.bind (closed.record rfl) fun _ => hd target name v rfl hn
  · exact closed.throw rfl

theorem nameAndElements (form : Form) :
    K (String × List Expr) (nameAndElements ev form es) := by
  unfold Eval.nameAndElements
  split
  · rename_i target e
    split
    · exact closed.throw rfl
    · refine closed.bind (h e (List.mem_cons_of_mem _ List.mem_cons_self)) fun v => ?_
      split
      · exact closed.throw rfl
      · exact closed.pure _
  · exact closed.throw rfl

theorem setProperty : K Expr (setProperty ev es) := by
  unfold Eval.setProperty
  split
  · rename_i key value target
    refine closed.bind (closed.ofExcept (keyOf_ordinary _ key)) fun k => ?_
    refine closed.bind (h target (by simp)) fun t => ?_
    exact closed.bind (h value (by simp)) fun v => closed.pure _
  · exact closed.throw rfl

theorem getProperty : K Expr (getProperty ev es) := by
  unfold Eval.getProperty
  split
  · rename_i key target
    refine closed.bind (closed.ofExcept (keyOf_ordinary _ key)) fun k => ?_
    exact closed.bind (h target (by simp)) fun t => closed.pure _
  · exact closed.throw rfl

/-! ## Forms that apply procedures -/

variable {invoke : Invoke} (hinv : ∀ name p args, K Expr (invoke name p args))
include hinv

theorem apply : K Expr (apply ev invoke es) :=
  closed.bind (closed.nameAndElements h .apply) fun x =>
    closed.bind (closed.procedureNamed x.1) fun p => hinv x.1 p x.2

theorem map : K Expr (map ev invoke es) :=
  closed.bind (closed.nameAndElements h .map) fun x =>
    closed.bind (closed.procedureNamed x.1) fun p =>
      closed.bind (closed.mapM fun e _ => hinv x.1 p [e]) fun _ => closed.pure _

omit h in
theorem sampleValue (name : String) (p : Procedure) (x : Double) :
    K Double (sampleValue invoke name p x) := by
  refine closed.bind (closed.shielded (hinv name p _)) fun y => ?_
  split
  · exact closed.pure _
  · exact closed.throw rfl

omit h in
theorem plotTarget {f b : Expr} {o : Option Expr} (hf : K Expr (ev f)) (hb : K Expr (ev b))
    (ho : ∀ e ∈ o, K Expr (ev e)) : K Expr (plotTarget ev invoke f b o) := by
  have htarget : K Target (target ev f) := by
    unfold target
    split
    · exact closed.pure _
    · exact closed.bind hf fun v => closed.pure _
  refine closed.bind htarget fun t => ?_
  refine closed.bind hb fun bv => ?_
  have plot : ∀ ov, K Expr (t.procedure >>= fun x =>
      Action.sampling (Eval.sampleValue invoke x.1 x.2) (Plot.Continuous.plot bv ov)) := by
    intro ov
    refine closed.bind (closed.targetProcedure t) fun x => ?_
    exact closed.sampling (Plot.Continuous.plot_ordinary bv ov) (closed.sampleValue hinv x.1 x.2)
  cases o with
  | none => exact closed.bind (closed.pure _) plot
  | some e => exact closed.bind (ho e rfl) plot

theorem continuousPlot : K Expr (continuousPlot ev invoke es) := by
  unfold Eval.continuousPlot
  split
  · exact closed.plotTarget hinv (h _ (by simp)) (h _ (by simp)) fun e he => by cases he
  · refine closed.plotTarget hinv (h _ (by simp)) (h _ (by simp)) fun e he => ?_
    cases he
    exact h _ (by simp)
  · exact closed.throw rfl

theorem application {e : Expr} (he : e.tail = es) : K Expr (application ev invoke e) := by
  unfold Eval.application
  split
  · exact closed.throw rfl
  · rename_i name _
    rw [he]
    refine closed.bind (closed.mapM h) fun args => ?_
    exact closed.bind (closed.procedureNamed name) fun p => hinv name p args

end

/-- a node whose children, procedure calls and definition have the property; a closure's children
are not evaluated where it is built -/
theorem node {ev : Expr → Action Expr} {invoke : Invoke} {e : Expr}
    (hchild : form? e ≠ some .lambda → ∀ c ∈ e.tail, K Expr (ev c))
    (hinv : ∀ name p args, K Expr (invoke name p args))
    (hdef : form? e = some .define → ∀ target name v, e.tail.head? = some target →
      target.symbol? = some name → K Expr (defining name v)) :
    K Expr (node ev invoke e) := by
  have leafOr : ∀ a, K Expr a →
      K Expr (if e.isLeaf && !e.isList then Eval.atomValue e.head else a) := by
    intro a ha
    split
    · exact closed.atomValue e.head
    · exact ha
  unfold Eval.node
  cases hf : form? e with
  | none => exact leafOr _ (closed.application (hchild (by simp [hf])) hinv rfl)
  | some form =>
    cases form with
    | begin => exact leafOr _ (closed.begin (hchild (by simp [hf])))
    | define => exact leafOr _ (closed.define (hchild (by simp [hf])) (hdef hf))
    | lambda => exact leafOr _ (closed.lambda e.tail)
    | apply => exact closed.apply (hchild (by simp [hf])) hinv
    | map => exact closed.map (hchild (by simp [hf])) hinv
    | setProperty => exact closed.setProperty (hchild (by simp [hf]))
    | getProperty => exact closed.getProperty (hchild (by simp [hf]))
    | continuousPlot => exact closed.continuousPlot (hchild (by simp [hf])) hinv

end Action.Closed

end ChartLisp
