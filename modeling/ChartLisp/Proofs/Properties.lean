import ChartLisp.Proofs.Shape
import ChartLisp.Proofs.Simulation.Eval

/-!
# Properties are seen by `get-property` alone

Two scopes that differ in the properties of their values, at any level, cannot be told apart by
code without `get-property`: not by its values, not by its errors, not by what it defines.

* `Expr.bare`            an expression without properties, in its children and captured bindings too
* `Expr.Discreet`        values whose closures, if they are ever entered, do not ask for properties
* `discreet_simulation`  what is equal without properties stays so under evaluation
* `eval_bare`            evaluation in two scopes that are equal without properties
-/

namespace ChartLisp

open ChartLisp.Action (Sim)

/-! ## Without properties -/

namespace Expr

mutual

/-- without properties, at every level -/
def bare : Expr → Expr
  | ⟨h, t, _, c, l⟩ => ⟨h, bareAll t, [], bareBindings c, l⟩

def bareAll : List Expr → List Expr
  | [] => []
  | e :: es => bare e :: bareAll es

def bareBindings : List (String × Expr) → List (String × Expr)
  | [] => []
  | (n, e) :: b => (n, bare e) :: bareBindings b

end

theorem bareAll_eq_map (es : List Expr) : bareAll es = es.map bare := by
  induction es with
  | nil => rfl
  | cons e es ih => rw [bareAll, ih, List.map_cons]

theorem bareBindings_eq (b : Bindings Expr) : bareBindings b = Bindings.mapValues bare b := by
  induction b with
  | nil => rfl
  | cons p b ih =>
    rw [bareBindings, ih]
    rfl

theorem bare_eq (e : Expr) :
    e.bare = ⟨e.head, e.tail.map bare, [], Bindings.mapValues bare e.captured, e.isBody⟩ := by
  obtain ⟨h, t, p, c, l⟩ := e
  rw [bare, bareAll_eq_map, bareBindings_eq]

theorem bare_inj {e e' : Expr} :
    e.bare = e'.bare ↔ e.head = e'.head ∧ e.tail.map bare = e'.tail.map bare ∧
      Bindings.mapValues bare e.captured = Bindings.mapValues bare e'.captured ∧
      e.isBody = e'.isBody := by
  rw [bare_eq, bare_eq, Expr.mk.injEq]
  simp only [true_and]

/-! ### What can be seen without properties -/

/-- what does not depend on properties is the same for expressions that differ in them alone -/
theorem eq_of_bare {α : Type} {view : Expr → α} (hview : ∀ e, view e.bare = view e) {e e' : Expr}
    (h : e.bare = e'.bare) : view e = view e' := by
  rw [← hview e, h, hview]

theorem isLeaf_bare (e : Expr) : e.bare.isLeaf = e.isLeaf := by
  rw [bare_eq]
  exact List.isEmpty_map

theorem head_bare (e : Expr) : e.bare.head = e.head := by rw [bare_eq]

theorem isLambda_bare (e : Expr) : e.bare.isLambda = e.isLambda := by
  unfold isLambda
  rw [head_bare]

theorem isList_bare (e : Expr) : e.bare.isList = e.isList := by
  unfold isList
  rw [head_bare]

theorem number?_bare (e : Expr) : e.bare.number? = e.number? := by
  unfold number?
  rw [isLeaf_bare, head_bare]

theorem complex?_bare (e : Expr) : e.bare.complex? = e.complex? := by
  unfold complex?
  rw [isLeaf_bare, head_bare]

theorem string?_bare (e : Expr) : e.bare.string? = e.string? := by
  unfold string?
  rw [isLeaf_bare, head_bare]

theorem symbol?_bare (e : Expr) : e.bare.symbol? = e.symbol? := by
  unfold symbol?
  rw [isLeaf_bare, head_bare]

mutual

theorem render_bare : ∀ e : Expr, e.bare.render = e.render
  | ⟨h, t, p, c, l⟩ => by
    have hhides : hidesHead ⟨h, bareAll t, [], bareBindings c, l⟩ = hidesHead ⟨h, t, p, c, l⟩ := rfl
    rw [bare]
    cases h <;> simp only [render, hhides, renderAll_bareAll t]

theorem renderAll_bareAll : ∀ es : List Expr, renderAll (bareAll es) = renderAll es
  | [] => rfl
  | e :: es => by rw [bareAll, renderAll, renderAll, render_bare e, renderAll_bareAll es]

end

theorem bare_setProperty (e : Expr) (key : String) (v : Expr) :
    (e.setProperty key v).bare = e.bare := by
  rw [bare_eq, bare_eq]
  rfl

end Expr

/-! ## Closures that do not ask for properties -/

/-- a value in which the body of every closure is without `get-property`.  Nothing is required of
what is attached as a property: no one will see it. -/
inductive Expr.Discreet : Expr → Prop where
  | closure {e : Expr} (hl : e.isLambda = true)
      (hb : ∀ body, e.tail[1]? = some body → body.Avoids .getProperty)
      (hc : ∀ p ∈ e.captured, Discreet p.2) : Discreet e
  | data {e : Expr} (hl : e.isLambda = false) (ht : ∀ c ∈ e.tail, Discreet c) : Discreet e

namespace Expr.Discreet

variable {e : Expr}

theorem of_isLambda (h : e.Discreet) (hl : e.isLambda = true) :
    (∀ body, e.tail[1]? = some body → body.Avoids .getProperty) ∧
      ∀ p ∈ e.captured, p.2.Discreet := by
  cases h with
  | closure _ hb hc => exact ⟨hb, hc⟩
  | data hn _ => rw [hl] at hn; cases hn

theorem tail (h : e.Discreet) (hl : e.isLambda = false) : ∀ c ∈ e.tail, c.Discreet := by
  cases h with
  | closure hn _ _ => rw [hl] at hn; cases hn
  | data _ ht => exact ht

theorem leaf {a : Atom} (ha : a.symbol? = none) : (Expr.leaf a).Discreet := by
  refine .data ?_ (List.forall_mem_nil _)
  show (a.symbol? == some Expr.lambdaName) = false
  rw [ha]
  rfl

/-- a list is no closure -/
theorem elements (h : e.Discreet) (hl : e.isList = true) : ∀ c ∈ e.tail, c.Discreet := by
  have hname : e.head.symbol? = some Expr.listName := eq_of_beq hl
  refine h.tail ?_
  unfold Expr.isLambda
  rw [hname]
  rfl

theorem setProperty (h : e.Discreet) (key : String) (v : Expr) :
    (e.setProperty key v).Discreet := by
  cases h with
  | closure hl hb hc => exact .closure hl hb hc
  | data hl ht => exact .data hl ht

end Expr.Discreet

/-! ## The simulation -/

def Scope.bare (s : Scope) : Scope := s.mapValues Expr.bare

theorem Eval.closure_bare (names : List String) {body body' : Expr} {b b' : Bindings Expr}
    (hbody : body.bare = body'.bare)
    (hb : Bindings.mapValues Expr.bare b = Bindings.mapValues Expr.bare b') :
    (Eval.closure names body b).bare = (Eval.closure names body' b').bare := by
  obtain ⟨hh, ht, hc, _⟩ := Expr.bare_inj.mp hbody
  have hmarked : Expr.bare { body with isBody := true } = Expr.bare { body' with isBody := true } :=
    Expr.bare_inj.mpr ⟨hh, ht, hc, rfl⟩
  refine Expr.bare_inj.mpr ⟨rfl, ?_, hb, rfl⟩
  show [_, Expr.bare { body with isBody := true }] = [_, Expr.bare { body' with isBody := true }]
  rw [hmarked]

theorem Eval.closure_discreet (names : List String) {body : Expr} {b : Bindings Expr}
    (hbody : body.Avoids .getProperty) (hb : ∀ p ∈ b, p.2.Discreet) :
    (Eval.closure names body b).Discreet := by
  refine .closure rfl (fun _ h => ?_) hb
  cases h
  exact .intro hbody.head hbody.tail

/-- the code of closures that are equal without properties -/
theorem Closure.Rel.ofBare {c c' : Expr} (h : c.bare = c'.bare) (hd : c.Discreet)
    (hl : c.isLambda = true) :
    Closure.Rel (Alike Expr.bare (Expr.Avoids .getProperty)) c.tail c'.tail := by
  have hb := (hd.of_isLambda hl).1
  have ht : List.Forall₂ (Alike Expr.bare fun _ => True) c.tail c'.tail :=
    forall₂_alike.mpr ⟨(Expr.bare_inj.mp h).2.1, fun _ _ => trivial⟩
  generalize c.tail = t at ht hb ⊢
  generalize c'.tail = t' at ht ⊢
  cases ht with
  | nil => exact .none
  | @cons params params' _ _ hp ht =>
    cases ht with
    | nil => exact .bodiless params params'
    | @cons body body' _ _ hbody _ =>
      -- the parameters are compared by their names only, the bodies as code
      have hsymbol : Expr.symbol? ∘ Expr.bare = Expr.symbol? := funext Expr.symbol?_bare
      have hparams := congrArg (List.map Expr.symbol?) (Expr.bare_inj.mp hp.1).2.1
      rw [List.map_map, List.map_map, hsymbol] at hparams
      exact .entered hparams ⟨hbody.1, hb body rfl⟩

theorem Scope.lookup_alike {s s' : Scope} (name : String)
    (h : Alike Scope.bare (Scope.Every Expr.Discreet) s s') :
    Option.Rel (Alike Expr.bare Expr.Discreet) (s.lookup name) (s'.lookup name) := by
  refine rel_alike ?_ fun v hv => h.2.lookup hv
  rw [← Scope.lookup_mapValues, ← Scope.lookup_mapValues]
  exact congrArg (Scope.lookup · name) h.1

theorem discreet_simulation :
    Simulation (Alike Expr.bare (Expr.Avoids .getProperty)) (Alike Expr.bare Expr.Discreet)
      (Alike Scope.bare (Scope.Every Expr.Discreet)) where
  head h := (Expr.bare_inj.mp h.1).1
  tail h := forall₂_alike.mpr ⟨(Expr.bare_inj.mp h.1).2.1, h.2.tail⟩
  shown h := Expr.eq_of_bare Expr.render_bare h.1
  lookup name h := Scope.lookup_alike name h
  define {s s' v v'} name h hv := by
    refine SameOutcome.define name (isSome_eq_of_rel (Scope.lookup_alike name h)) fun _ _ => ?_
    refine ⟨?_, h.2.insert name hv.2⟩
    have hs : s.mapValues Expr.bare = s'.mapValues Expr.bare := h.1
    show Scope.mapValues _ _ = Scope.mapValues _ _
    rw [Scope.mapValues_modify_insert, Scope.mapValues_modify_insert, hs, hv.1]
  lambda {s s' _ _ _ _ _ names} _ _ h hb _ := by
    have hs : s.mapValues Expr.bare = s'.mapValues Expr.bare := h.1
    refine ⟨Eval.closure_bare names hb.1 ?_, Eval.closure_discreet names hb.2 h.2.flattened⟩
    rw [← Scope.flattened_mapValues, hs, Scope.flattened_mapValues]
  isLambda h := Expr.eq_of_bare Expr.isLambda_bare h.1
  property _ he hf := absurd hf he.2.form?_ne
  code h hl := Closure.Rel.ofBare h.1 h.2 hl
  enter {s s' c c' m m'} h hc hl hm := by
    obtain ⟨hframe, hm⟩ := hm.alike
    have hcaptured := (Expr.bare_inj.mp hc.1).2.2.1
    have hroot : Bindings.mapValues Expr.bare s.root = Bindings.mapValues Expr.bare s'.root :=
      congrArg Scope.root h.1
    refine ⟨?_, fun b hb => ?_, h.2.root⟩
    · show Scope.mk [Bindings.mapValues _ m, Bindings.mapValues _ c.captured] _ =
        Scope.mk [Bindings.mapValues _ m', Bindings.mapValues _ c'.captured] _
      rw [hframe, hcaptured, hroot]
    · rcases List.mem_pair.mp hb with rfl | rfl
      · exact fun p hp => (hm p hp).2
      · exact (hc.2.of_isLambda hl).2
  atom a ha := ⟨rfl, .leaf ha⟩
  list h := by
    obtain ⟨hbare, hall⟩ := forall₂_alike.mp h
    exact ⟨Expr.bare_inj.mpr ⟨rfl, hbare, rfl, rfl⟩, .data rfl hall⟩
  setProperty {t t' v v'} key ht _ :=
    ⟨by rw [Expr.bare_setProperty, ht.1, Expr.bare_setProperty], ht.2.setProperty key v⟩
  elements {v v'} h := by
    unfold Expr.elements?
    rw [← Expr.eq_of_bare Expr.isList_bare h.1]
    by_cases hl : v.isList
    · rw [if_pos hl, if_pos hl]
      exact .some (forall₂_alike.mpr ⟨(Expr.bare_inj.mp h.1).2.1, h.2.elements hl⟩)
    · rw [if_neg hl, if_neg hl]
      exact .none
  number h := Expr.eq_of_bare Expr.number?_bare h.1
  complex h := Expr.eq_of_bare Expr.complex?_bare h.1
  string h := Expr.eq_of_bare Expr.string?_bare h.1
  render h := Expr.eq_of_bare Expr.render_bare h.1

/-- Code without `get-property` cannot tell two scopes apart that differ in properties alone, to
whatever depth it is evaluated: it fails with the same error in both or gives values that differ in
properties alone, and so do the scopes it leaves. -/
theorem eval_bare {e : Expr} (he : e.Avoids .getProperty) {r r' : Run}
    (hscope : r.scope.bare = r'.scope.bare) (hraised : r.raised = r'.raised)
    (hr : r.scope.Every Expr.Discreet) (depth : Nat) :
    ((eval depth e).exec r).1.map Expr.bare = ((eval depth e).exec r').1.map Expr.bare ∧
      ((eval depth e).exec r).2.scope.bare = ((eval depth e).exec r').2.scope.bare := by
  have hsim : Sim (fun _ => False) (Alike Scope.bare (Scope.Every Expr.Discreet))
      (Alike Expr.bare Expr.Discreet) (eval depth e) (eval depth e) :=
    discreet_simulation.eval_sim depth e e ⟨rfl, he⟩
  obtain ⟨hvalue, hleft, _, _⟩ := (hsim r r' ⟨⟨hscope, hr⟩, hraised⟩).alike
  exact ⟨hvalue, hleft⟩

/-- a list with the element `v`, and a closure that captured `v` -/
def holding (v : Expr) : Scope :=
  ⟨[], [("pair", Eval.closure ["x"] (Expr.list [Expr.symbol "x", Expr.symbol "w"]) [("w", v)]),
    ("vs", Expr.list [v])]⟩

/-- `(begin (define ws (set-property "seen" vs vs)) (map pair ws))` -/
def pairing : Expr :=
  Expr.node (.symbol "begin")
    [Expr.node (.symbol "define") [Expr.symbol "ws",
      Expr.node (.symbol "set-property") [Expr.string "seen", Expr.symbol "vs", Expr.symbol "vs"]],
    Expr.node (.symbol "map") [Expr.symbol "pair", Expr.symbol "ws"]]

theorem holding_discreet {v : Expr} (hv : v.Discreet) : (holding v).Every Expr.Discreet := by
  have hbody : (Expr.list [Expr.symbol "x", Expr.symbol "w"]).Avoids .getProperty := by
    simp [Expr.list, Expr.symbol, Expr.leaf, Expr.Avoids.node_iff, Expr.listName, Form.name]
  refine ⟨List.forall_mem_nil _, List.forall_mem_cons.mpr ⟨?_, List.forall_mem_singleton.mpr ?_⟩⟩
  · exact Eval.closure_discreet ["x"] hbody (List.forall_mem_singleton.mpr hv)
  · exact .data rfl (List.forall_mem_singleton.mpr hv)

theorem eval_pairing_bare :
    let rent := Expr.string "rent"
    let paid := rent.setProperty "unit" (Expr.string "EUR")
    pairing.Avoids .getProperty ∧ (holding paid).bare = (holding rent).bare ∧
      (holding paid).Every Expr.Discreet ∧
      ((eval depthLimit pairing).exec (Run.start (holding paid))).1.map Expr.bare =
        ((eval depthLimit pairing).exec (Run.start (holding rent))).1.map Expr.bare ∧
      ((eval depthLimit pairing).exec (Run.start (holding paid))).2.scope.bare =
        ((eval depthLimit pairing).exec (Run.start (holding rent))).2.scope.bare := by
  intro rent paid
  have hpairing : pairing.Avoids .getProperty := by
    simp [pairing, Expr.symbol, Expr.string, Expr.leaf, Expr.Avoids.node_iff, Form.name]
  have hpaid : paid.Discreet := Expr.Discreet.setProperty (.leaf rfl) _ _
  have hscope : (Run.start (holding paid)).scope.bare = (Run.start (holding rent)).scope.bare := rfl
  have hholding := holding_discreet hpaid
  exact ⟨hpairing, hscope, hholding, eval_bare hpairing hscope rfl hholding depthLimit⟩

end ChartLisp
