import ChartLisp.Proofs.Growth

/-!
# A successful evaluation has made all its definitions

No form chooses between its children.  An evaluation that comes to a value has evaluated every node
of its expression outside of a `lambda`, so each name that the expression defines has a value then.

* `Action.Binds n`     where the action succeeds, `n` has a value
* `Eval.node_binds`    a node binds what one of its children binds
* `eval_binds`         an evaluation binds what its expression defines
-/

namespace ChartLisp

namespace Action

variable {α β γ : Type} {n : String}

/-- where the action succeeds, the name has a value -/
def Binds (n : String) (a : Action α) : Prop :=
  ∀ r v r', a.exec r = (.ok v, r') → (r'.scope.lookup n).isSome = true

/-- does nothing to its scope but define names -/
def OnlyDefines (a : Action α) : Prop := Grows (fun _ => True) a

theorem onlyDefines_closed : Closed fun _ a => OnlyDefines a := grows_closed

namespace Binds

theorem throw (e : EvalError) : Binds n (throw e : Action α) := by
  intro r v r' h
  cases h

/-- what follows defines names at most, so the name keeps its value -/
theorem bind_left {a : Action α} {k : α → Action β} (h : Binds n a)
    (hk : ∀ x, OnlyDefines (k x)) : Binds n (a >>= k) := by
  intro r y r' hy
  rw [exec_bind] at hy
  cases hx : a.exec r with
  | mk x r₁ =>
    rw [hx] at hy
    cases x with
    | error e => cases hy
    | ok x =>
      have hrest : (k x).exec r₁ = (.ok y, r') := hy
      have hgrows := hk x r₁
      rw [hrest] at hgrows
      obtain ⟨z, hz⟩ := Option.isSome_iff_exists.mp (h r x r₁ hx)
      rw [hgrows.lookup hz]
      rfl

theorem bind_right {a : Action α} {k : α → Action β} (hk : ∀ x, Binds n (k x)) :
    Binds n (a >>= k) := by
  intro r y r' hy
  rw [exec_bind] at hy
  cases hx : a.exec r with
  | mk x r₁ =>
    rw [hx] at hy
    cases x with
    | error e => cases hy
    | ok x => exact hk x r₁ y r' hy

theorem mapM {f : γ → Action α} {xs : List γ} {c : γ} (hc : c ∈ xs) (h : Binds n (f c))
    (hf : ∀ x, OnlyDefines (f x)) : Binds n (xs.mapM f) := by
  induction xs with
  | nil => cases hc
  | cons x xs ih =>
    rw [List.mapM_cons]
    rcases List.mem_cons.mp hc with rfl | hc
    · refine h.bind_left fun _ => ?_
      refine onlyDefines_closed.bind (onlyDefines_closed.mapM fun y _ => hf y) fun _ => ?_
      exact onlyDefines_closed.pure _
    · refine bind_right fun _ => ?_
      exact (ih hc).bind_left fun _ => onlyDefines_closed.pure _

end Binds

theorem defining_binds (name : String) (v : Expr) : Binds name (defining name v) := by
  intro r x r' h
  rw [exec_defining] at h
  cases hs : r.scope.define name v with
  | error e => rw [hs] at h; cases h
  | ok s =>
    rw [hs] at h
    cases h
    obtain ⟨_, _, rfl⟩ := Scope.define_eq_ok.mp hs
    rw [Scope.lookup_modify_insert, if_pos rfl]
    rfl

end Action

namespace Eval

open ChartLisp.Action (Binds OnlyDefines onlyDefines_closed)

variable {n : String} {ev : Expr → Action Expr} {es : List Expr} {c : Expr}

theorem isLeaf_of_tail {e : Expr} (h : e.tail ≠ []) : e.isLeaf = false :=
  List.isEmpty_eq_false_iff.mpr h

/-- an expression with children is no name -/
theorem symbol?_of_tail (hleaf : c.tail ≠ []) : c.symbol? = none := by
  unfold Expr.symbol?
  rw [isLeaf_of_tail hleaf]
  rfl

/-- nor is it the name of a property -/
theorem keyOf_of_tail {form : Form} (hleaf : c.tail ≠ []) :
    keyOf form c = .error (.wrongType form.name .firstNotString) := by
  unfold keyOf Expr.string?
  rw [isLeaf_of_tail hleaf]
  rfl

/-! ## One child of a form -/

section
variable (hc : c ∈ es) (h : Binds n (ev c))
include hc h

theorem begin_binds (hev : ∀ e, OnlyDefines (ev e)) : Binds n (begin ev es) := by
  induction es with
  | nil => cases hc
  | cons e es ih =>
    cases es with
    | nil =>
      obtain rfl : c = e := List.mem_singleton.mp hc
      exact h
    | cons e' es =>
      rcases List.mem_cons.mp hc with rfl | hc
      · exact h.bind_left fun _ => onlyDefines_closed.begin fun x _ => hev x
      · exact .bind_right fun _ => ih hc

variable (hleaf : c.tail ≠ [])
include hleaf

theorem define_binds : Binds n (define ev es) := by
  unfold define
  split
  · rename_i target e
    split
    · exact .throw _
    · rename_i name hname
      refine .bind_right fun _ => .bind_right fun _ => ?_
      rcases List.mem_cons.mp hc with rfl | hc
      · rw [symbol?_of_tail hleaf] at hname
        cases hname
      · obtain rfl : c = e := List.mem_singleton.mp hc
        refine h.bind_left fun v => ?_
        refine onlyDefines_closed.bind (onlyDefines_closed.record rfl) fun _ => ?_
        exact Action.defining_grows trivial v
  · exact .throw _

theorem nameAndElements_binds (form : Form) : Binds n (nameAndElements ev form es) := by
  unfold nameAndElements
  split
  · rename_i target e
    split
    · exact .throw _
    · rename_i name hname
      rcases List.mem_cons.mp hc with rfl | hc
      · rw [symbol?_of_tail hleaf] at hname
        cases hname
      · obtain rfl : c = e := List.mem_singleton.mp hc
        refine h.bind_left fun v => ?_
        split
        · exact onlyDefines_closed.throw rfl
        · exact onlyDefines_closed.pure _
  · exact .throw _

theorem setProperty_binds (hev : ∀ e, OnlyDefines (ev e)) : Binds n (setProperty ev es) := by
  unfold setProperty
  split
  · rename_i key value target
    rcases List.mem_cons.mp hc with rfl | hc
    · rw [keyOf_of_tail hleaf]
      exact .throw _
    · refine .bind_right fun k => ?_
      rcases List.mem_cons.mp hc with rfl | hc
      · refine .bind_right fun t => ?_
        exact h.bind_left fun v => onlyDefines_closed.pure _
      · obtain rfl : c = target := List.mem_singleton.mp hc
        refine h.bind_left fun t => ?_
        exact onlyDefines_closed.bind (hev value) fun v => onlyDefines_closed.pure _
  · exact .throw _

theorem getProperty_binds : Binds n (getProperty ev es) := by
  unfold getProperty
  split
  · rename_i key target
    rcases List.mem_cons.mp hc with rfl | hc
    · rw [keyOf_of_tail hleaf]
      exact .throw _
    · obtain rfl : c = target := List.mem_singleton.mp hc
      exact .bind_right fun k => h.bind_left fun t => onlyDefines_closed.pure _
  · exact .throw _

variable {invoke : Invoke} (hinv : ∀ name p args, OnlyDefines (invoke name p args))
include hinv

theorem apply_binds : Binds n (apply ev invoke es) :=
  (nameAndElements_binds hc h hleaf .apply).bind_left fun x =>
    onlyDefines_closed.bind (onlyDefines_closed.procedureNamed x.1) fun p => hinv x.1 p x.2

theorem map_binds : Binds n (map ev invoke es) :=
  (nameAndElements_binds hc h hleaf .map).bind_left fun x =>
    onlyDefines_closed.bind (onlyDefines_closed.procedureNamed x.1) fun p =>
      onlyDefines_closed.bind (onlyDefines_closed.mapM fun e _ => hinv x.1 p [e]) fun _ =>
        onlyDefines_closed.pure _

variable (hev : ∀ e, OnlyDefines (ev e))
include hev

omit hleaf hc in
theorem application_binds {e : Expr} (hc : c ∈ e.tail) : Binds n (application ev invoke e) := by
  unfold application
  split
  · exact .throw _
  · rename_i name _
    refine (Binds.mapM hc h hev).bind_left fun args => ?_
    exact onlyDefines_closed.bind (onlyDefines_closed.procedureNamed name) fun p =>
      hinv name p args

omit hc in
theorem plotTarget_binds {f b : Expr} {o : Option Expr} (hc : c = f ∨ c = b ∨ c ∈ o) :
    Binds n (plotTarget ev invoke f b o) := by
  have hplot : ∀ (t : Target) bv ov, OnlyDefines (t.procedure >>= fun x =>
      Action.sampling (sampleValue invoke x.1 x.2) (Plot.Continuous.plot bv ov)) := by
    intro t bv ov
    refine onlyDefines_closed.bind (onlyDefines_closed.targetProcedure t) fun x => ?_
    exact onlyDefines_closed.sampling (Plot.Continuous.plot_ordinary bv ov)
      (onlyDefines_closed.sampleValue hinv x.1 x.2)
  have hoptions : OnlyDefines (o.elim (pure (Expr.list [])) ev) := by
    cases o with
    | none => exact onlyDefines_closed.pure _
    | some e => exact hev e
  -- options that are left out are an empty list
  have heq : plotTarget ev invoke f b o = target ev f >>= fun t => ev b >>= fun bv =>
      o.elim (pure (Expr.list [])) ev >>= fun ov => t.procedure >>= fun x =>
        Action.sampling (sampleValue invoke x.1 x.2) (Plot.Continuous.plot bv ov) := by
    cases o <;> rfl
  rw [heq]
  rcases hc with rfl | rfl | hc
  · have htarget : Binds n (target ev c) := by
      unfold target
      rw [symbol?_of_tail hleaf]
      exact h.bind_left fun v => onlyDefines_closed.pure _
    exact htarget.bind_left fun t => onlyDefines_closed.bind (hev b) fun bv =>
      onlyDefines_closed.bind hoptions (hplot t bv)
  · exact .bind_right fun t => h.bind_left fun bv => onlyDefines_closed.bind hoptions (hplot t bv)
  · obtain rfl : o = some c := hc
    exact .bind_right fun t => .bind_right fun bv => h.bind_left (hplot t bv)

theorem continuousPlot_binds : Binds n (continuousPlot ev invoke es) := by
  unfold continuousPlot
  split
  · refine plotTarget_binds h hleaf hinv hev ?_
    simpa using hc
  · refine plotTarget_binds h hleaf hinv hev ?_
    simpa [eq_comm] using hc
  · exact .throw _

end

theorem node_binds (hev : ∀ e, OnlyDefines (ev e)) (h : Binds n (ev c)) (hleaf : c.tail ≠ [])
    {invoke : Invoke} (hinv : ∀ name p args, OnlyDefines (invoke name p args)) {e : Expr}
    (hl : e.head ≠ .symbol Form.lambda.name) (hc : c ∈ e.tail) : Binds n (node ev invoke e) := by
  have htail : e.isLeaf = false := isLeaf_of_tail (List.ne_nil_of_mem hc)
  unfold node
  cases hf : form? e with
  | none => simpa [htail] using application_binds h hinv hev hc
  | some form =>
    cases form with
    | begin => simpa [htail] using begin_binds hc h hev
    | define => simpa [htail] using define_binds hc h hleaf
    | lambda => exact absurd (head_eq_of_form? hf) hl
    | apply => exact apply_binds hc h hleaf hinv
    | map => exact map_binds hc h hleaf hinv
    | setProperty => exact setProperty_binds hc h hleaf hev
    | getProperty => exact getProperty_binds hc h hleaf
    | continuousPlot => exact continuousPlot_binds hc h hleaf hinv hev

end Eval

/-! ## Evaluation -/

open ChartLisp.Action (Binds OnlyDefines)

theorem Expr.Defines.tail_ne_nil {e : Expr} {n : String} (h : e.Defines n) : e.tail ≠ [] := by
  cases h with
  | here _ ht _ =>
    intro hnil
    rw [hnil] at ht
    cases ht
  | child _ hc _ => exact List.ne_nil_of_mem hc

theorem Eval.define_binds_target {ev : Expr → Action Expr} {es : List Expr} {target : Expr}
    {n : String} (ht : es.head? = some target) (hn : target.symbol? = some n) :
    Binds n (define ev es) := by
  unfold define
  split
  · cases ht
    rw [hn]
    refine .bind_right fun _ => .bind_right fun _ => .bind_right fun v => .bind_right fun _ => ?_
    exact Action.defining_binds n v
  · exact .throw _

/-- A name that the expression defines has a value behind each evaluation that succeeds. -/
theorem eval_binds (depth : Nat) {e : Expr} {n : String} (h : e.Defines n) :
    Binds n (eval depth e) := by
  induction depth generalizing e with
  | zero => exact .bind_right fun _ => .bind_right fun _ => .throw _
  | succ depth ih =>
    have hleaf : e.isLeaf = false := Eval.isLeaf_of_tail h.tail_ne_nil
    refine .bind_right fun _ => ?_
    cases h with
    | here hd ht hn =>
      have hform : Eval.form? e = some .define := Eval.form?_of_head hd
      unfold Eval.node
      rw [hform]
      simpa [hleaf] using Eval.define_binds_target ht hn
    | child hl hc h =>
      refine Eval.node_binds (fun e => (eval_grows depth e).mono fun _ _ => trivial) (ih h)
        h.tail_ne_nil (fun name p args => ?_) hl hc
      exact Eval.call_grows (eval depth) name p args

end ChartLisp
