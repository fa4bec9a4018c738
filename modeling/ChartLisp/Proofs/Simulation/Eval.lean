import ChartLisp.Proofs.Simulation.Staging

/-!
# Evaluation keeps a relation on values and scopes

`Simulation X V S` lists what a relation `S` on scopes, `V` on values and `X` on code must satisfy,
each clause about one thing the evaluation does with them.  Then evaluation satisfies it as a whole:
this is the case of a single stage.

* `Simulation.staging`       the relations as those of a single stage
* `Simulation.node_sim`      one node, from what is known of its children and of procedure calls
* `Simulation.evalWith_sim`  evaluation, from what is known of procedure calls
* `Simulation.eval_sim`      evaluation as it is
-/

namespace ChartLisp

open ChartLisp.Action (Sim)
open ChartLisp.Comparison (plain plain_sim_iff)

structure Simulation (X V : Expr → Expr → Prop) (S : Scope → Scope → Prop) : Prop
    extends Congruence V where
  /-- related code has the same head -/
  head {e e' : Expr} : X e e' → e.head = e'.head
  /-- and related children -/
  tail {e e' : Expr} : X e e' → List.Forall₂ X e.tail e'.tail
  shown {e e' : Expr} : X e e' → e.render = e'.render
  lookup {s s' : Scope} (name : String) : S s s' → Option.Rel V (s.lookup name) (s'.lookup name)
  define {s s' : Scope} {v v' : Expr} (name : String) :
    S s s' → V v v' → SameOutcome S (s.define name v) (s'.define name v')
  /-- closures that are built at related nodes -/
  lambda {s s' : Scope} {e e' params body body' : Expr} {names : List String} :
    X e e' → Eval.form? e = some .lambda → S s s' → X body body' →
      Eval.parameterNames [] (Eval.declared params) = .ok names →
      V (Eval.closure names body s.flattened) (Eval.closure names body' s'.flattened)
  isLambda {v v' : Expr} : V v v' → v.isLambda = v'.isLambda
  property {e e' t t' : Expr} (key : String) :
    X e e' → Eval.form? e = some .getProperty → V t t' → V (t.property key) (t'.property key)
  /-- related closures have related code -/
  code {c c' : Expr} : V c c' → c.isLambda = true → Closure.Rel X c.tail c'.tail
  /-- the scopes in which the bodies of related closures are evaluated -/
  enter {s s' : Scope} {c c' : Expr} {m m' : Bindings Expr} :
    S s s' → V c c' → c.isLambda = true → Frame.Rel V m m' →
      S ⟨[m, c.captured], s.root⟩ ⟨[m', c'.captured], s'.root⟩

/-- a definition made on both sides or refused on both sides -/
theorem SameOutcome.define {S : Scope → Scope → Prop} {s s' : Scope} {v v' : Expr} (name : String)
    (hl : (s.lookup name).isSome = (s'.lookup name).isSome)
    (h : Bindable name → s.lookup name = none →
      S (s.modify (Bindings.insert name v)) (s'.modify (Bindings.insert name v'))) :
    SameOutcome S (s.define name v) (s'.define name v') := by
  unfold Scope.define
  rw [← Scope.requireUnbound_congr hl]
  cases hr : s.requireUnbound name with
  | error e => exact .error e
  | ok _ =>
    obtain ⟨hb, hnone⟩ := Scope.requireUnbound_eq_ok.mp hr
    exact .ok (h hb hnone)

namespace Simulation

variable {stop : EvalError → Prop} {X V : Expr → Expr → Prop} {S : Scope → Scope → Prop}

/-- evaluations of related code agree -/
def Evaluates (stop : EvalError → Prop) (X V : Expr → Expr → Prop) (S : Scope → Scope → Prop)
    (ev ev' : Expr → Action Expr) : Prop :=
  ∀ e e', X e e' → Sim stop S V (ev e) (ev' e')

/-- applications of related procedures to related arguments agree -/
def Invokes (stop : EvalError → Prop) (V : Expr → Expr → Prop) (S : Scope → Scope → Prop)
    (invoke invoke' : Eval.Invoke) : Prop :=
  ∀ name p p' args args', Procedure.Rel V p p' → List.Forall₂ V args args' →
    Sim stop S V (invoke name p args) (invoke' name p' args')

theorem evaluates_iff {ev ev' : Expr → Action Expr} :
    Evaluates stop X V S ev ev' ↔
      Staging.Evaluates (plain stop S) (fun _ => X) (fun _ => V) ev ev' :=
  ⟨fun h _ e e' he => plain_sim_iff.mpr (h e e' he),
    fun h e e' he => plain_sim_iff.mp (h .stage e e' he)⟩

theorem invokes_iff {invoke invoke' : Eval.Invoke} :
    Invokes stop V S invoke invoke' ↔
      Staging.Invokes (plain stop S) (fun _ => V) invoke invoke' :=
  ⟨fun h _ name p p' args args' hp ha => plain_sim_iff.mpr (h name p p' args args' hp ha),
    fun h name p p' args args' hp ha => plain_sim_iff.mp (h .stage name p p' args args' hp ha)⟩

section
variable (sim : Simulation X V S)
include sim

theorem symbol? {e e' : Expr} (h : X e e') : e.symbol? = e'.symbol? := by
  have ht := sim.tail h
  unfold Expr.symbol? Expr.isLeaf
  rw [sim.head h]
  generalize e.tail = es at ht ⊢
  generalize e'.tail = es' at ht ⊢
  cases ht <;> rfl

/-- the same parameters are declared, or the same one is refused -/
theorem parameterNames {params params' : Expr} (h : X params params') :
    Eval.parameterNames [] (Eval.declared params) =
      Eval.parameterNames [] (Eval.declared params') := by
  have same : ∀ (ps ps' : List Expr), List.Forall₂ X ps ps' → ∀ seen,
      Eval.parameterNames seen ps = Eval.parameterNames seen ps' := by
    intro ps ps' hps
    induction hps with
    | nil => intro seen; rfl
    | cons hp _ ih =>
      intro seen
      simp only [Eval.parameterNames, sim.symbol? hp, sim.shown hp, ih]
  unfold Eval.declared
  simp only [Eval.parameterNames, sim.head h, same _ _ (sim.tail h)]

theorem lambda_sim {e e' : Expr} (h : X e e') (hf : Eval.form? e = some .lambda) :
    (plain stop S).Sim (fun _ => V) .stage (Eval.lambda e.tail) (Eval.lambda e'.tail) := by
  have ht := sim.tail h
  generalize e.tail = es at ht ⊢
  generalize e'.tail = es' at ht ⊢
  cases ht with
  | nil => exact .throw _
  | @cons params params' _ _ hp ht =>
    cases ht with
    | nil => exact .throw _
    | @cons body body' _ _ hb ht =>
      cases ht with
      | cons hx ht => exact Staging.wrongCount_sim .lambda 2 (.cons hp (.cons hb (.cons hx ht)))
      | nil =>
        have hn : SameOutcome
            (fun ns ns' => ns = ns' ∧ Eval.parameterNames [] (Eval.declared params) = .ok ns)
            (Eval.parameterNames [] (Eval.declared params))
            (Eval.parameterNames [] (Eval.declared params')) := by
          rw [← sim.parameterNames hp]
          exact .refl_ok _
        refine Comparison.Sim.bind (.ofExcept fun _ _ => .same hn) fun _ ns ns' _ hns => ?_
        obtain ⟨rfl, hok⟩ := hns
        exact .get_bind fun _ r r' _ hr => .pure fun _ _ => sim.lambda h hf hr.scope hb hok

/-- the relations at a single stage -/
theorem staging (stop : EvalError → Prop) :
    Staging (plain stop S) (fun _ => X) (fun _ => V) where
  values _ := sim.toCongruence
  value_later _ h := h
  code_later _ h := h
  head := sim.head
  count h := (sim.tail h).length_eq
  tail h _ := sim.tail h
  lookup _ _ hs := .same (sim.lookup _ hs)
  define _ _ _ _ hs hv := .same ((sim.define _ hs hv).imp fun _ _ hu => ⟨.stage, le_rfl, hu⟩)
  lambda h hf := sim.lambda_sim h hf
  isLambda := sim.isLambda
  property := sim.property
  code hc hl := (sim.code hc hl).imp fun _ _ _ => trivial
  enter hs hc hl ht ht' hm _ := by
    have hcode := sim.code hc hl
    rw [ht, ht'] at hcode
    cases hcode with
    | entered _ hb => exact ⟨.stage, sim.enter hs hc hl hm, hb, fun _ _ _ _ hv => hv⟩

/-! ## Procedures -/

theorem procedureNamed_sim (name : String) :
    Sim stop S (Procedure.Rel V) (Eval.procedureNamed name) (Eval.procedureNamed name) :=
  plain_sim_iff.mp ((sim.staging stop).procedureNamed_sim fun _ _ _ _ hs => .same (sim.lookup name hs))

theorem callBuiltin_sim (name : String) (b : Builtin) {args args' : List Expr}
    (h : List.Forall₂ V args args') :
    Sim stop S V (Eval.callBuiltin name b args) (Eval.callBuiltin name b args') :=
  plain_sim_iff.mp ((sim.staging stop).callBuiltin_sim name b h)

theorem callClosure_sim {ev ev' : Expr → Action Expr} (hev : Evaluates stop X V S ev ev')
    (name : String) {c c' : Expr} {args args' : List Expr} (hc : V c c') (hl : c.isLambda = true)
    (ha : List.Forall₂ V args args') :
    Sim stop S V (Eval.callClosure ev name c args) (Eval.callClosure ev' name c' args') :=
  plain_sim_iff.mp ((sim.staging stop).callClosure_sim (evaluates_iff.mp hev) name hc hl ha)

theorem call_sim {ev ev' : Expr → Action Expr} (hev : Evaluates stop X V S ev ev') :
    Invokes stop V S (Eval.call ev) (Eval.call ev') :=
  invokes_iff.mpr ((sim.staging stop).call_sim (evaluates_iff.mp hev))

/-! ## Evaluation -/

theorem node_sim {ev ev' : Expr → Action Expr} (hev : Evaluates stop X V S ev ev')
    {invoke invoke' : Eval.Invoke} (hinv : Invokes stop V S invoke invoke') {e e' : Expr}
    (h : X e e') : Sim stop S V (Eval.node ev invoke e) (Eval.node ev' invoke' e') :=
  plain_sim_iff.mp
    ((sim.staging stop).node_sim (evaluates_iff.mp hev) (invokes_iff.mp hinv) (w := .stage) h)

/-- Evaluations to the same depth agree if they apply procedures in ways that agree. -/
theorem evalWith_sim {calls calls' : (Expr → Action Expr) → Eval.Invoke}
    (hcalls : ∀ ev ev', Evaluates stop X V S ev ev' → Invokes stop V S (calls ev) (calls' ev'))
    (depth : Nat) : Evaluates stop X V S (evalWith calls depth) (evalWith calls' depth) :=
  evaluates_iff.mpr ((sim.staging stop).evalWith_sim
    (fun ev ev' hev => invokes_iff.mp (hcalls ev ev' (evaluates_iff.mpr hev))) depth)

theorem eval_sim (depth : Nat) : Evaluates stop X V S (eval depth) (eval depth) :=
  evaluates_iff.mpr ((sim.staging stop).eval_sim depth)

end

/-- Relations on scopes alone: values and code are the same on both sides. -/
theorem ofScopes (lookup : ∀ {s s'}, S s s' → ∀ name, s.lookup name = s'.lookup name)
    (define : ∀ {s s'}, S s s' → ∀ name v, SameOutcome S (s.define name v) (s'.define name v))
    (flattened : ∀ {s s'}, S s s' → s.flattened = s'.flattened)
    (enter : ∀ {s s'}, S s s' → ∀ m captured, S ⟨[m, captured], s.root⟩ ⟨[m, captured], s'.root⟩) :
    Simulation Eq Eq S where
  head h := h ▸ rfl
  tail h := h ▸ List.forall₂_refl _
  shown h := h ▸ rfl
  atom _ _ := rfl
  lookup name h := by
    rw [lookup h name]
    cases Scope.lookup _ name with
    | none => exact .none
    | some v => exact .some rfl
  define name h hv := hv ▸ define h name _
  lambda _ _ h hb _ := by rw [hb, flattened h]
  isLambda h := h ▸ rfl
  elements h := by
    subst h
    cases Expr.elements? _ with
    | none => exact .none
    | some vs => exact .some (List.forall₂_refl _)
  number h := h ▸ rfl
  complex h := h ▸ rfl
  string h := h ▸ rfl
  render h := h ▸ rfl
  list h := by
    rw [List.forall₂_eq_eq_eq] at h
    rw [h]
  setProperty _ ht hv := by rw [ht, hv]
  property _ _ _ ht := ht ▸ rfl
  code h _ := h ▸ Closure.Rel.refl _
  enter h hc _ hm := by
    rw [hc, Frame.Rel.eq hm]
    exact enter h _ _

end Simulation

end ChartLisp
