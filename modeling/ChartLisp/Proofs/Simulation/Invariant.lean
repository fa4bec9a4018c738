import ChartLisp.Proofs.Simulation.Eval

/-!
# Invariants of evaluation

Properties of values and scopes that everything in the evaluation keeps.  They make equality a
simulation of evaluation by itself, and so they hold when an evaluation has failed too.

* `Invariant C P Q`        what properties `P` of values, `Q` of scopes and `C` of code must satisfy
* `Invariant.simulation`   then equality together with them is a simulation
* `Invariant.preserved`    an evaluation keeps them
* `Invariant.evalWith_eq`  only calls of closures with the property matter
-/

namespace ChartLisp

open ChartLisp.Action (Sim)

structure Invariant (C P : Expr → Prop) (Q : Scope → Prop) : Prop where
  tail {e : Expr} : C e → ∀ c ∈ e.tail, C c
  atom (a : Atom) : a.symbol? = none → P (Expr.leaf a)
  list {vs : List Expr} : (∀ v ∈ vs, P v) → P (Expr.list vs)
  elements {v : Expr} {vs : List Expr} : P v → v.elements? = some vs → ∀ x ∈ vs, P x
  setProperty {t v : Expr} (key : String) : P t → P v → P (t.setProperty key v)
  property {e t : Expr} (key : String) :
    C e → Eval.form? e = some .getProperty → P t → P (t.property key)
  lookup {s : Scope} {name : String} {v : Expr} : Q s → s.lookup name = some v → P v
  define {s : Scope} {name : String} {v : Expr} :
    Q s → Bindable name → P v → Q (s.modify (Bindings.insert name v))
  lambda {s : Scope} {e params body : Expr} {names : List String} :
    C e → Eval.form? e = some .lambda → Q s → C body →
      Eval.parameterNames [] (Eval.declared params) = .ok names →
      P (Eval.closure names body s.flattened)
  /-- the body of a closure is code -/
  code {c body : Expr} : P c → c.isLambda = true → c.tail[1]? = some body → C body
  enter {s : Scope} {c : Expr} {m : Bindings Expr} :
    Q s → P c → c.isLambda = true → (∀ p ∈ m, Bindable p.1 ∧ P p.2) →
      Q ⟨[m, c.captured], s.root⟩

namespace Invariant

variable {C P : Expr → Prop} {Q : Scope → Prop}

theorem simulation (inv : Invariant C P Q) : Simulation (Both C) (Both P) (Both Q) where
  head h := h.1 ▸ rfl
  tail h := by
    obtain ⟨rfl, hc⟩ := h
    exact forall₂_both.mpr ⟨rfl, inv.tail hc⟩
  shown h := h.1 ▸ rfl
  atom a ha := ⟨rfl, inv.atom a ha⟩
  lookup name h := by
    obtain ⟨rfl, hs⟩ := h
    exact rel_both fun _ hv => inv.lookup hs hv
  define name h hv := by
    obtain ⟨rfl, hs⟩ := h
    obtain ⟨rfl, hp⟩ := hv
    exact SameOutcome.define name rfl fun hb _ => ⟨rfl, inv.define hs hb hp⟩
  lambda he hf h hb hn := by
    obtain ⟨rfl, hs⟩ := h
    obtain ⟨rfl, hbody⟩ := hb
    exact ⟨rfl, inv.lambda he.2 hf hs hbody hn⟩
  isLambda h := h.1 ▸ rfl
  elements h := by
    obtain ⟨rfl, hp⟩ := h
    cases he : Expr.elements? _ with
    | none => exact .none
    | some vs => exact .some (forall₂_both.mpr ⟨rfl, inv.elements hp he⟩)
  number h := h.1 ▸ rfl
  complex h := h.1 ▸ rfl
  string h := h.1 ▸ rfl
  render h := h.1 ▸ rfl
  list h := by
    obtain ⟨rfl, hall⟩ := forall₂_both.mp h
    exact ⟨rfl, inv.list hall⟩
  setProperty key ht hv := by
    obtain ⟨rfl, hpt⟩ := ht
    obtain ⟨rfl, hpv⟩ := hv
    exact ⟨rfl, inv.setProperty key hpt hpv⟩
  property key he hf ht := by
    obtain ⟨rfl, hp⟩ := ht
    exact ⟨rfl, inv.property key he.2 hf hp⟩
  code {c c'} h hl := by
    obtain ⟨rfl, hp⟩ := h
    have hbody : ∀ body, c.tail[1]? = some body → C body := fun body => inv.code hp hl
    generalize c.tail = t at hbody
    match t with
    | [] => exact .none
    | [params] => exact .bodiless params params
    | _ :: body :: _ => exact .entered rfl ⟨rfl, hbody body rfl⟩
  enter h hc hl hm := by
    obtain ⟨rfl, hs⟩ := h
    obtain ⟨rfl, hp⟩ := hc
    obtain ⟨rfl, hframe⟩ := hm.both
    exact ⟨rfl, inv.enter hs hp hl hframe⟩

/-- Values have the property, and the scope has it at the end of every evaluation. -/
theorem preserved (inv : Invariant C P Q) {e : Expr} (he : C e) {r : Run} (hr : Q r.scope)
    (depth : Nat) :
    (∀ v, ((eval depth e).exec r).1 = .ok v → P v) ∧ Q ((eval depth e).exec r).2.scope := by
  have hsim : Sim (fun _ => False) (Both Q) (Both P) (eval depth e) (eval depth e) :=
    inv.simulation.eval_sim depth e e ⟨rfl, he⟩
  obtain ⟨_, _, hv, hs⟩ := (hsim r r ⟨⟨rfl, hr⟩, rfl⟩).both
  exact ⟨hv, hs⟩

/-- Another way to apply procedures comes to the same end, if it does the same to built-in ones and
to closures with the property. -/
theorem evalWith_eq (inv : Invariant C P Q) {calls : (Expr → Action Expr) → Eval.Invoke}
    (hbuiltin : ∀ ev name b args, calls ev name (.builtin b) args = Eval.callBuiltin name b args)
    (hclosure : ∀ ev name c args, P c → c.isLambda = true →
      calls ev name (.closure c) args = Eval.callClosure ev name c args)
    {e : Expr} (he : C e) {r : Run} (hr : Q r.scope) (depth : Nat) :
    ((evalWith calls depth e).exec r).1 = ((eval depth e).exec r).1 ∧
      ((evalWith calls depth e).exec r).2.scope = ((eval depth e).exec r).2.scope := by
  have hsim : Sim (fun _ => False) (Both Q) (Both P) (evalWith calls depth e)
      (evalWith Eval.call depth e) := by
    refine inv.simulation.evalWith_sim (fun ev ev' hev => ?_) depth e e ⟨rfl, he⟩
    intro name p p' args args' hp ha
    cases hp with
    | builtin b =>
      rw [hbuiltin]
      exact inv.simulation.callBuiltin_sim name b ha
    | @closure c _ hc hl =>
      rw [hclosure ev name c args hc.2 hl]
      exact inv.simulation.callClosure_sim hev name hc hl ha
  rw [evalWith_call] at hsim
  obtain ⟨hout, hscope, _, _⟩ := (hsim r r ⟨⟨rfl, hr⟩, rfl⟩).both
  exact ⟨hout, hscope⟩

end Invariant

end ChartLisp
