import ChartLisp.Proofs.Builtin
import ChartLisp.Proofs.Forms
import ChartLisp.Proofs.Scope
import ChartLisp.Proofs.Simulation.Stages

/-!
# Evaluation keeps relations that go through stages

`Staging C X V` lists what relations `X w` on code and `V w` on values, at each stage `w` of a
comparison `C`, must satisfy, each clause about one thing the evaluation does with them.  Then
evaluation satisfies them as a whole.  A definition may lead on to a later stage, and the body of a
closure may be evaluated at a stage of its own.

* `Bindings.Rel K V`   maps with the same names, all in `K`, and related values
* `Frame.Rel V`        the innermost scopes of two calls: the same unreserved names, related values
* `Closure.Rel X`      what closures are made of: the same parameters, related bodies
* `Procedure.Rel V`    the same built-in procedure, or related closures
* `Comparison.Found`   the values of a name on both sides
* `evalWith calls`     evaluation with another way to apply procedures; `eval` is `evalWith call`
* `Staging.node_sim`      one node, from what is known of its children and of procedure calls
* `Staging.evalWith_sim`  evaluation, from what is known of procedure calls
* `Staging.eval_sim`      evaluation as it is
-/

namespace ChartLisp

open ChartLisp.Action (Linked)

/-- two maps with the same names, all of them in `K`, and related values -/
def Bindings.Rel (K : String → Prop) (V : Expr → Expr → Prop) :
    Bindings Expr → Bindings Expr → Prop :=
  List.Forall₂ fun p p' => p.1 = p'.1 ∧ K p.1 ∧ V p.2 p'.2

/-- two maps with the same unreserved names and related values -/
def Frame.Rel (V : Expr → Expr → Prop) : Bindings Expr → Bindings Expr → Prop :=
  List.Forall₂ fun p p' => p.1 = p'.1 ∧ Bindable p.1 ∧ V p.2 p'.2

/-- the children of two closures: parameters that name the same, and related bodies.  Without a body
there is nothing to enter. -/
inductive Closure.Rel (X : Expr → Expr → Prop) : List Expr → List Expr → Prop where
  | entered {params params' body body' : Expr} {rest rest' : List Expr}
      (hp : params.tail.map Expr.symbol? = params'.tail.map Expr.symbol?) (hb : X body body') :
      Rel X (params :: body :: rest) (params' :: body' :: rest')
  | none : Rel X [] []
  | bodiless (params params' : Expr) : Rel X [params] [params']

theorem Closure.Rel.refl (t : List Expr) : Closure.Rel Eq t t := by
  match t with
  | [] => exact .none
  | [params] => exact .bodiless params params
  | _ :: _ :: _ => exact .entered rfl rfl

theorem Closure.Rel.imp {X Y : Expr → Expr → Prop} (hXY : ∀ e e', X e e' → Y e e')
    {t t' : List Expr} (h : Closure.Rel X t t') : Closure.Rel Y t t' := by
  cases h with
  | entered hp hb => exact .entered hp (hXY _ _ hb)
  | none => exact .none
  | bodiless params params' => exact .bodiless params params'

inductive Procedure.Rel (V : Expr → Expr → Prop) : Procedure → Procedure → Prop where
  | builtin (b : Builtin) : Rel V (.builtin b) (.builtin b)
  | closure {c c' : Expr} (h : V c c') (hc : c.isLambda = true) : Rel V (.closure c) (.closure c')

/-- the same name, or related values -/
inductive Target.Rel (V : Expr → Expr → Prop) : Eval.Target → Eval.Target → Prop where
  | named (name : String) : Rel V (.named name) (.named name)
  | value {v v' : Expr} (h : V v v') : Rel V (.value v) (.value v')

theorem Target.Rel.imp {V U : Expr → Expr → Prop} (hVU : ∀ v v', V v v' → U v v')
    {t t' : Eval.Target} (h : Target.Rel V t t') : Target.Rel U t t' := by
  cases h with
  | named name => exact .named name
  | value hv => exact .value (hVU _ _ hv)

theorem isSome_eq_of_rel {α β : Type} {V : α → β → Prop} {x : Option α} {y : Option β}
    (h : Option.Rel V x y) : x.isSome = y.isSome := by
  cases h <;> rfl

/-! ## Frames -/

namespace Bindings.Rel

variable {K : String → Prop} {V : Expr → Expr → Prop} {m m' : Bindings Expr}

theorem insert {v v' : Expr} {name : String} (hn : K name) (hv : V v v') (h : Bindings.Rel K V m m') :
    Bindings.Rel K V (Bindings.insert name v m) (Bindings.insert name v' m') := by
  induction h with
  | nil => exact .cons ⟨rfl, hn, hv⟩ .nil
  | @cons p p' m m' hp hm ih =>
    obtain ⟨n, w⟩ := p
    obtain ⟨n', w'⟩ := p'
    obtain ⟨hnn, hb, hw⟩ := hp
    simp only at hnn hb hw
    subst hnn
    rw [Bindings.insert, Bindings.insert]
    by_cases hlt : name < n
    · rw [if_pos hlt, if_pos hlt]
      exact .cons ⟨rfl, hn, hv⟩ (.cons ⟨rfl, hb, hw⟩ hm)
    · rw [if_neg hlt, if_neg hlt]
      by_cases heq : name = n
      · rw [if_pos heq, if_pos heq]
        exact .cons ⟨rfl, hn, hv⟩ hm
      · rw [if_neg heq, if_neg heq]
        exact .cons ⟨rfl, hb, hw⟩ ih

theorem get? (name : String) (h : Bindings.Rel K V m m') :
    Option.Rel V (Bindings.get? m name) (Bindings.get? m' name) := by
  induction h with
  | nil => exact .none
  | @cons p p' m m' hp hm ih =>
    obtain ⟨n, w⟩ := p
    obtain ⟨n', w'⟩ := p'
    obtain ⟨hnn, _, hw⟩ := hp
    simp only at hnn hw
    subst hnn
    rw [Bindings.get?_cons, Bindings.get?_cons]
    by_cases heq : name = n
    · rw [if_pos heq, if_pos heq]
      exact .some hw
    · rw [if_neg heq, if_neg heq]
      exact ih

end Bindings.Rel

namespace Frame.Rel

variable {V : Expr → Expr → Prop} {m m' : Bindings Expr}

theorem insert {v v' : Expr} {name : String} (hn : Bindable name) (hv : V v v')
    (h : Frame.Rel V m m') :
    Frame.Rel V (Bindings.insert name v m) (Bindings.insert name v' m') :=
  Bindings.Rel.insert hn hv h

theorem get? (name : String) (h : Frame.Rel V m m') :
    Option.Rel V (Bindings.get? m name) (Bindings.get? m' name) :=
  Bindings.Rel.get? (K := Bindable) name h

theorem contains (name : String) (h : Frame.Rel V m m') :
    Bindings.contains m name = Bindings.contains m' name :=
  isSome_eq_of_rel (h.get? name)

theorem eq (h : Frame.Rel Eq m m') : m = m' := by
  induction h with
  | nil => rfl
  | cons hp _ ih => rw [Prod.ext hp.1 hp.2.2, ih]

/-- the same names, and values that are the same under `f` -/
theorem alike {f : Expr → Expr} {P : Expr → Prop} (h : Frame.Rel (Alike f P) m m') :
    Bindings.mapValues f m = Bindings.mapValues f m' ∧ ∀ p ∈ m, Bindable p.1 ∧ P p.2 := by
  induction h with
  | nil => exact ⟨rfl, List.forall_mem_nil _⟩
  | @cons p p' m m' hp _ ih =>
    obtain ⟨hn, hb, hf, hP⟩ := hp
    refine ⟨?_, List.forall_mem_cons.mpr ⟨⟨hb, hP⟩, ih.2⟩⟩
    show (p.1, f p.2) :: Bindings.mapValues f m = (p'.1, f p'.2) :: Bindings.mapValues f m'
    rw [hn, hf, ih.1]

theorem both {P : Expr → Prop} (h : Frame.Rel (Both P) m m') :
    m = m' ∧ ∀ p ∈ m, Bindable p.1 ∧ P p.2 := by
  have halike := alike (f := id) h
  rwa [Bindings.mapValues_id, Bindings.mapValues_id] at halike

end Frame.Rel

/-! ## Names -/

/-- The values of a name: related ones, none on either side, or none on a side for which that ends
the comparison, whether a value or a procedure was asked for. -/
inductive Comparison.Found {W : Type} (C : Comparison W) (name : String)
    (V : Expr → Expr → Prop) : Option Expr → Option Expr → Prop where
  | none : Found C name V none none
  | some {v v' : Expr} (h : V v v') : Found C name V (some v) (some v')
  | first {y : Option Expr} (h : C.stop (.unbound name)) (h' : C.stop (.notProcedure name)) :
      Found C name V none y
  | second {x : Option Expr} (h : C.drop (.unbound name)) (h' : C.drop (.notProcedure name)) :
      Found C name V x none

theorem Comparison.Found.same {W : Type} {C : Comparison W} {name : String} {V : Expr → Expr → Prop}
    {x y : Option Expr} (h : Option.Rel V x y) : C.Found name V x y := by
  cases h with
  | none => exact .none
  | some hv => exact .some hv

/-- evaluation with another way to apply procedures -/
def evalWith (calls : (Expr → Action Expr) → Eval.Invoke) : Nat → Expr → Action Expr
  | 0, _ => do
    Action.poll
    Action.record .depthReached
    throw .tooDeep
  | depth + 1, e => do
    Action.poll
    Eval.node (evalWith calls depth) (calls (evalWith calls depth)) e

theorem evalWith_call (depth : Nat) : evalWith Eval.call depth = eval depth := by
  induction depth with
  | zero => rfl
  | succ depth ih =>
    funext e
    rw [evalWith, ih, eval]

structure Staging {W : Type} [Preorder W] (C : Comparison W) (X V : W → Expr → Expr → Prop) :
    Prop where
  values (w : W) : Congruence (V w)
  value_later {w w' : W} {v v' : Expr} : w ≤ w' → V w v v' → V w' v v'
  code_later {w w' : W} {e e' : Expr} : w ≤ w' → X w e e' → X w' e e'
  /-- related code has the same head -/
  head {w : W} {e e' : Expr} : X w e e' → e.head = e'.head
  /-- as many children -/
  count {w : W} {e e' : Expr} : X w e e' → e.tail.length = e'.tail.length
  /-- and related ones, if they are evaluated where they stand -/
  tail {w : W} {e e' : Expr} :
    X w e e' → Eval.form? e ≠ some .lambda → List.Forall₂ (X w) e.tail e'.tail
  lookup {w : W} {s s' : Scope} {e e' : Expr} {name : String} :
    X w e e' → e.head = .symbol name → C.scopes w s s' →
      C.Found name (V w) (s.lookup name) (s'.lookup name)
  define {w : W} {s s' : Scope} {e e' target v v' : Expr} {name : String} :
    X w e e' → Eval.form? e = some .define → e.tail.head? = some target →
      target.symbol? = some name → C.scopes w s s' → V w v v' →
      C.Outcome (fun u u' => ∃ w', w ≤ w' ∧ C.scopes w' u u') (s.define name v) (s'.define name v')
  /-- closures that are built at related nodes -/
  lambda {w : W} {e e' : Expr} :
    X w e e' → Eval.form? e = some .lambda → C.Sim V w (Eval.lambda e.tail) (Eval.lambda e'.tail)
  isLambda {w : W} {v v' : Expr} : V w v v' → v.isLambda = v'.isLambda
  property {w : W} {e e' t t' : Expr} (key : String) :
    X w e e' → Eval.form? e = some .getProperty → V w t t' → V w (t.property key) (t'.property key)
  /-- related closures have the same parameters -/
  code {w : W} {c c' : Expr} :
    V w c c' → c.isLambda = true → Closure.Rel (fun _ _ => True) c.tail c'.tail
  /-- the scopes in which the bodies of related closures are evaluated, and the stage at which they
  are; the values that come of it are related where the call was made -/
  enter {w : W} {s s' : Scope} {c c' params params' body body' : Expr} {rest rest' : List Expr}
      {m m' : Bindings Expr} :
    C.scopes w s s' → V w c c' → c.isLambda = true → c.tail = params :: body :: rest →
      c'.tail = params' :: body' :: rest' → Frame.Rel (V w) m m' →
      (∀ p ∈ params.tail, ∀ name, p.symbol? = some name → Bindings.contains m name = true) →
      ∃ inner, C.scopes inner ⟨[m, c.captured], s.root⟩ ⟨[m', c'.captured], s'.root⟩ ∧
        X inner body body' ∧ ∀ w' v v', inner ≤ w' → V w' v v' → V w v v'

namespace Staging

variable {W : Type} [Preorder W] {C : Comparison W} {X V : W → Expr → Expr → Prop} {w : W}

/-- evaluations of related code agree -/
def Evaluates (C : Comparison W) (X V : W → Expr → Expr → Prop) (ev ev' : Expr → Action Expr) :
    Prop :=
  ∀ w e e', X w e e' → C.Sim V w (ev e) (ev' e')

/-- applications of related procedures to related arguments agree -/
def Invokes (C : Comparison W) (V : W → Expr → Expr → Prop) (invoke invoke' : Eval.Invoke) :
    Prop :=
  ∀ w name p p' args args', Procedure.Rel (V w) p p' → List.Forall₂ (V w) args args' →
    C.Sim V w (invoke name p args) (invoke' name p' args')

theorem wrongCount_sim (form : Form) (expected : Nat) {A : Expr → Expr → Prop}
    {es es' : List Expr} (h : List.Forall₂ A es es') :
    C.Sim V w (Eval.wrongCount form expected es) (Eval.wrongCount form expected es') := by
  unfold Eval.wrongCount
  rw [h.length_eq]
  exact .throw _

/-- binding related arguments to the same parameters changes the innermost scopes alone -/
theorem bindArguments {V : Expr → Expr → Prop} (s s' : Scope) {ps ps' args args' : List Expr}
    {m m' : Bindings Expr} (hp : ps.map Expr.symbol? = ps'.map Expr.symbol?)
    (ha : List.Forall₂ V args args') (hlen : ps.length = args.length) (hm : Frame.Rel V m m') :
    SameOutcome (fun u u' => ∃ n n', Frame.Rel V n n' ∧ u = s.child n ∧ u' = s'.child n' ∧
        (∀ name, Bindings.contains m name = true → Bindings.contains n name = true) ∧
        ∀ p ∈ ps, ∀ name, p.symbol? = some name → Bindings.contains n name = true)
      (Closure.bindArguments ps args (s.child m))
      (Closure.bindArguments ps' args' (s'.child m')) := by
  induction ps generalizing ps' args args' m m' with
  | nil =>
    obtain rfl : ps' = [] := List.map_eq_nil_iff.mp hp.symm
    exact .ok ⟨m, m', hm, rfl, rfl, fun _ h => h, List.forall_mem_nil _⟩
  | cons p ps ih =>
    obtain ⟨p', ps', rfl, hpp, hps⟩ := List.map_eq_cons_iff.mp hp.symm
    cases ha with
    | nil => cases hlen
    | @cons a a' args args' haa hargs =>
      rw [Closure.bindArguments, Closure.bindArguments, hpp]
      cases hname : p.symbol? with
      | none => exact .error _
      | some name =>
        show SameOutcome _ ((s.child m).bindArgument name a >>= fun u => _)
          ((s'.child m').bindArgument name a' >>= fun u => _)
        unfold Scope.bindArgument
        cases hr : requireUnreserved name with
        | error e => exact .error e
        | ok _ =>
          show SameOutcome _ ((if Bindings.contains m name then _ else _) >>= fun u => _)
            ((if Bindings.contains m' name then _ else _) >>= fun u => _)
          rw [← hm.contains name]
          by_cases hc : Bindings.contains m name
          · rw [if_pos hc, if_pos hc]
            exact .error _
          · rw [if_neg hc, if_neg hc]
            have hrest := ih hps.symm hargs (Nat.succ.inj hlen)
              (hm.insert (requireUnreserved_eq_ok.mp hr) haa)
            refine hrest.imp ?_
            rintro u u' ⟨n, n', hn, hu, hu', hkept, hbound⟩
            refine ⟨n, n', hn, hu, hu', fun k hk => ?_, List.forall_mem_cons.mpr
              ⟨fun k hk => ?_, hbound⟩⟩
            · exact hkept k (Bindings.contains_insert.mpr (.inr hk))
            · rw [hname] at hk
              cases hk
              exact hkept name (Bindings.contains_insert.mpr (.inl rfl))

section
variable (st : Staging C X V)
include st

theorem isLeaf {e e' : Expr} (h : X w e e') : e.isLeaf = e'.isLeaf := by
  unfold Expr.isLeaf
  rw [Bool.eq_iff_iff, List.isEmpty_iff_length_eq_zero, List.isEmpty_iff_length_eq_zero, st.count h]

theorem symbol? {e e' : Expr} (h : X w e e') : e.symbol? = e'.symbol? := by
  unfold Expr.symbol?
  rw [st.isLeaf h, st.head h]

theorem keyOf (form : Form) {e e' : Expr} (h : X w e e') :
    Eval.keyOf form e = Eval.keyOf form e' := by
  unfold Eval.keyOf Expr.string?
  rw [st.isLeaf h, st.head h]

theorem values_later {w w' : W} {vs vs' : List Expr} (hw : w ≤ w')
    (h : List.Forall₂ (V w) vs vs') : List.Forall₂ (V w') vs vs' :=
  h.imp fun _ _ => st.value_later hw

theorem procedure_later {w w' : W} {p p' : Procedure} (hw : w ≤ w') (h : Procedure.Rel (V w) p p') :
    Procedure.Rel (V w') p p' := by
  cases h with
  | builtin b => exact .builtin b
  | closure hc hl => exact .closure (st.value_later hw hc) hl

/-- the procedure of a name that is found on both sides -/
theorem procedure {s s' : Scope} {name : String}
    (h : C.Found name (V w) (s.lookup name) (s'.lookup name)) :
    C.Outcome (Procedure.Rel (V w)) (s.procedure name) (s'.procedure name) := by
  unfold Scope.procedure
  cases Builtin.ofName? name with
  | some b => exact .ok (.builtin b)
  | none =>
    generalize s.lookup name = x at h ⊢
    generalize s'.lookup name = y at h ⊢
    cases h with
    | none => exact .error _
    | first _ hs => exact .first hs
    | second _ hd => exact .second hd
    | @some v v' hv =>
      show C.Outcome _ (if v.isLambda then _ else _) (if v'.isLambda then _ else _)
      rw [← st.isLambda hv]
      by_cases hc : v.isLambda
      · rw [if_pos hc, if_pos hc]
        exact .ok (.closure hv hc)
      · rw [if_neg hc, if_neg hc]
        exact .error _

theorem procedureNamed_sim {name : String} (h : ∀ w' s s', w ≤ w' → C.scopes w' s s' →
    C.Found name (V w') (s.lookup name) (s'.lookup name)) :
    C.Sim (fun w => Procedure.Rel (V w)) w (Eval.procedureNamed name)
      (Eval.procedureNamed name) := by
  refine .get_bind fun w₁ r r' hw₁ hl => .ofExcept fun w₂ hw₂ => ?_
  have hout := st.procedure (h w₁ _ _ hw₁ hl.scope)
  exact hout.imp fun p p' hp => st.procedure_later hw₂ hp

/-- a name in the code stands for related procedures -/
theorem named_sim {e e' : Expr} {name : String} (h : X w e e') (hname : e.head = .symbol name) :
    C.Sim (fun w => Procedure.Rel (V w)) w (Eval.procedureNamed name)
      (Eval.procedureNamed name) :=
  st.procedureNamed_sim fun _ _ _ hw hs => st.lookup (st.code_later hw h) hname hs

theorem atomValue_sim {e e' : Expr} (h : X w e e') :
    C.Sim V w (Eval.atomValue e.head) (Eval.atomValue e'.head) := by
  rw [← st.head h]
  cases ha : e.head with
  | symbol name =>
    refine .get_bind fun w₁ r r' hw₁ hl => ?_
    have hfound := st.lookup (st.code_later hw₁ h) ha hl.scope
    generalize r.scope.lookup name = x at hfound ⊢
    generalize r'.scope.lookup name = y at hfound ⊢
    cases hfound with
    | none => exact .throw _
    | some hv => exact .pure fun _ hw₂ => st.value_later hw₂ hv
    | first hs _ => exact fun _ _ _ _ _ => .first hs
    | second hd _ => exact fun _ _ _ _ _ => .second hd
  | none => exact .pure fun w' _ => (st.values w').atom .none rfl
  | number x => exact .pure fun w' _ => (st.values w').atom (.number x) rfl
  | complex z => exact .pure fun w' _ => (st.values w').atom (.complex z) rfl
  | string t => exact .pure fun w' _ => (st.values w').atom (.string t) rfl

/-! ## Calls -/

theorem callBuiltin_sim (name : String) (b : Builtin) {args args' : List Expr}
    (h : List.Forall₂ (V w) args args') :
    C.Sim V w (Eval.callBuiltin name b args) (Eval.callBuiltin name b args') := by
  refine (Comparison.Sim.record _ _).bind fun w₁ _ _ hw₁ _ => ?_
  have hcall (w' : W) (hw : w₁ ≤ w') : C.Outcome (V w') (b.call args) (b.call args') :=
    .same ((st.values w').call b (st.values_later (hw₁.trans hw) h))
  refine (Comparison.Sim.ofExcept hcall).bind fun w₂ v v' _ hv => ?_
  refine (Comparison.Sim.recordAll _ _).bind fun w₃ _ _ hw₃ _ => ?_
  exact .pure fun _ hw₄ => st.value_later (hw₃.trans hw₄) hv

theorem callClosure_sim {ev ev' : Expr → Action Expr} (hev : Evaluates C X V ev ev')
    (name : String) {c c' : Expr} {args args' : List Expr} (hc : V w c c') (hl : c.isLambda = true)
    (ha : List.Forall₂ (V w) args args') :
    C.Sim V w (Eval.callClosure ev name c args) (Eval.callClosure ev' name c' args') := by
  have hcode := st.code hc hl
  unfold Eval.callClosure
  generalize ht : c.tail = t at hcode ⊢
  generalize ht' : c'.tail = t' at hcode ⊢
  cases hcode with
  | none => exact .throw _
  | bodiless _ _ => exact .throw _
  | @entered params params' body body' _ _ hp _ =>
    have hcount : params.tail.length = params'.tail.length := by
      rw [← List.length_map (f := Expr.symbol?), hp, List.length_map]
    have hlen : (params.tail.length ≠ args.length) = (params'.tail.length ≠ args'.length) := by
      rw [hcount, ha.length_eq]
    show C.Sim V w (if params.tail.length ≠ args.length then _ else _)
      (if params'.tail.length ≠ args'.length then _ else _)
    by_cases hn : params.tail.length ≠ args.length
    · rw [if_pos hn, if_pos (hlen ▸ hn)]
      exact .throw _
    · rw [if_neg hn, if_neg (hlen ▸ hn)]
      refine (Comparison.Sim.record _ _).bind fun w₁ _ _ hw₁ _ => ?_
      refine .get_bind fun w₂ r r' hw₂ hr => ?_
      have hbind := bindArguments ⟨[c.captured], r.scope.root⟩ ⟨[c'.captured], r'.scope.root⟩ hp
        (st.values_later (hw₁.trans hw₂) ha) (not_not.mp hn) .nil
      refine Comparison.Sim.bind (.ofExcept fun w' _ => Comparison.Outcome.same hbind)
        fun w₃ u u' hw₃ hu => ?_
      obtain ⟨m, m', hm, rfl, rfl, -, hbound⟩ := hu
      obtain ⟨inner, hs, hbody, hback⟩ := st.enter hr.scope
        (st.value_later (hw₁.trans hw₂) hc) hl ht ht' hm hbound
      refine .inScope inner hs (hev inner body body' hbody) fun w' w₄ v v' hw' hw₄ hv => ?_
      exact st.value_later (hw₃.trans hw') (hback w₄ v v' hw₄ hv)

theorem call_sim {ev ev' : Expr → Action Expr} (hev : Evaluates C X V ev ev') :
    Invokes C V (Eval.call ev) (Eval.call ev') := by
  intro w name p p' args args' hp ha
  cases hp with
  | builtin b => exact st.callBuiltin_sim name b ha
  | closure hc hl => exact st.callClosure_sim hev name hc hl ha

theorem sampleValue_sim {invoke invoke' : Eval.Invoke} (hinv : Invokes C V invoke invoke')
    (name : String) {p p' : Procedure} (hp : Procedure.Rel (V w) p p') (x : Double) :
    C.Sim (fun _ => Eq) w (Eval.sampleValue invoke name p x)
      (Eval.sampleValue invoke' name p' x) := by
  have hx : V w (Expr.number x) (Expr.number x) := (st.values w).atom (.number x) rfl
  refine (Comparison.Sim.shielded (hinv w name p p' _ _ hp (.cons hx .nil))).bind
    fun w₁ y y' _ hy => ?_
  rw [← (st.values w₁).number hy, ← (st.values w₁).render hy]
  cases y.number? with
  | some v => exact .pure fun _ _ => rfl
  | none => exact .throw _

/-! ## Special forms -/

/-- the check before a definition fails where the definition does -/
theorem requireUnbound {e e' target : Expr} {s s' : Scope} {name : String} (he : X w e e')
    (hf : Eval.form? e = some .define) (ht : e.tail.head? = some target)
    (hn : target.symbol? = some name) (hs : C.scopes w s s') :
    C.Outcome (fun _ _ => True) (s.requireUnbound name) (s'.requireUnbound name) :=
  Comparison.Outcome.of_map (st.define he hf ht hn hs ((st.values w).atom .none rfl))

/-- a definition that is made on both sides leads on to a later stage -/
theorem defining_sim {e e' target v v' : Expr} {name : String} (he : X w e e')
    (hf : Eval.form? e = some .define) (ht : e.tail.head? = some target)
    (hn : target.symbol? = some name) (hv : V w v v') :
    C.Sim V w (Action.defining name v) (Action.defining name v') := by
  intro w₁ r r' hw₁ hl
  have hdef := st.define (st.code_later hw₁ he) hf ht hn hl.scope (st.value_later hw₁ hv)
  rw [Action.exec_defining, Action.exec_defining]
  generalize r.scope.define name v = x at hdef ⊢
  generalize r'.scope.define name v' = y at hdef ⊢
  cases hdef with
  | first hs => exact .first hs
  | second hd => exact .second hd
  | error e => exact .error le_rfl hl
  | ok hu =>
    obtain ⟨w₂, hw₂, hu⟩ := hu
    exact .ok hw₂ (st.value_later (hw₁.trans hw₂) hv) ⟨hu, hl.raised⟩

theorem targetProcedure_sim {t t' : Eval.Target} (h : Target.Rel (V w) t t')
    (hname : ∀ name, t = .named name → C.Sim (fun w => Procedure.Rel (V w)) w
      (Eval.procedureNamed name) (Eval.procedureNamed name)) :
    C.Sim (fun w x y => x.1 = y.1 ∧ Procedure.Rel (V w) x.2 y.2) w t.procedure t'.procedure := by
  cases h with
  | named name =>
    refine (hname name rfl).bind fun w₁ p p' _ hp => ?_
    exact .pure fun _ hw₂ => ⟨rfl, st.procedure_later hw₂ hp⟩
  | @value v v' hv =>
    show C.Sim _ w (if v.isLambda then _ else _) (if v'.isLambda then _ else _)
    rw [← st.isLambda hv]
    by_cases hc : v.isLambda
    · rw [if_pos hc, if_pos hc]
      exact .pure fun _ hw => ⟨rfl, .closure (st.value_later hw hv) hc⟩
    · rw [if_neg hc, if_neg hc]
      exact .throw _

section
variable {ev ev' : Expr → Action Expr} (hev : Evaluates C X V ev ev')
include hev

omit st in
theorem begin_sim {es es' : List Expr} (h : List.Forall₂ (X w) es es') :
    C.Sim V w (Eval.begin ev es) (Eval.begin ev' es') := by
  induction h with
  | nil => exact .throw _
  | @cons e e' es es' he hes ih =>
    cases hes with
    | nil => exact hev w e e' he
    | cons _ _ => exact (hev w e e' he).bind fun _ _ _ hw _ => ih.later hw

theorem define_sim {e e' : Expr} (h : X w e e') (hf : Eval.form? e = some .define) :
    C.Sim V w (Eval.define ev e.tail) (Eval.define ev' e'.tail) := by
  have ht := st.tail h (by simp [hf])
  generalize htail : e.tail = es at ht ⊢
  generalize e'.tail = es' at ht ⊢
  cases ht with
  | nil => exact .throw _
  | @cons target target' _ _ htarget ht =>
    cases ht with
    | nil => exact .throw _
    | @cons c c' _ _ hc ht =>
      cases ht with
      | cons hx ht => exact wrongCount_sim .define 2 (.cons htarget (.cons hc (.cons hx ht)))
      | nil =>
        have hfirst : e.tail.head? = some target := by rw [htail]; rfl
        unfold Eval.define
        simp only [← st.symbol? htarget]
        cases hname : target.symbol? with
        | none => exact .throw _
        | some name =>
          refine .get_bind fun w₁ r r' hw₁ hr => ?_
          have hcheck := st.requireUnbound (st.code_later hw₁ h) hf hfirst hname hr.scope
          refine Comparison.Sim.bind (.ofExcept fun _ _ => hcheck) fun w₂ _ _ hw₂ _ => ?_
          refine ((hev w c c' hc).later (hw₁.trans hw₂)).bind fun w₃ v v' hw₃ hv => ?_
          refine (Comparison.Sim.record _ _).bind fun w₄ _ _ hw₄ _ => ?_
          have hw := ((hw₁.trans hw₂).trans hw₃).trans hw₄
          exact st.defining_sim (st.code_later hw h) hf hfirst hname (st.value_later hw₄ hv)

theorem nameAndElements_sim (form : Form) {es es' : List Expr} (h : List.Forall₂ (X w) es es') :
    C.Sim (fun w x y => x.1 = y.1 ∧ List.Forall₂ (V w) x.2 y.2 ∧
        C.Sim (fun w => Procedure.Rel (V w)) w (Eval.procedureNamed x.1)
          (Eval.procedureNamed x.1)) w
      (Eval.nameAndElements ev form es) (Eval.nameAndElements ev' form es') := by
  cases h with
  | nil => exact .throw _
  | @cons target target' _ _ ht h =>
    cases h with
    | nil => exact .throw _
    | @cons e e' _ _ he h =>
      cases h with
      | cons _ _ => exact .throw _
      | nil =>
        unfold Eval.nameAndElements
        simp only [← st.symbol? ht]
        cases hname : target.symbol? with
        | none => exact .throw _
        | some name =>
          refine (hev w e e' he).bind fun w₁ v v' hw₁ hv => ?_
          have hes := (st.values w₁).elements hv
          generalize v.elements? = x at hes ⊢
          generalize v'.elements? = y at hes ⊢
          cases hes with
          | none => exact .throw _
          | some hvs =>
            refine .pure fun w₂ hw₂ => ⟨rfl, st.values_later hw₂ hvs, ?_⟩
            exact (st.named_sim ht (Expr.head_of_symbol? hname)).later (hw₁.trans hw₂)

theorem setProperty_sim {es es' : List Expr} (h : List.Forall₂ (X w) es es') :
    C.Sim V w (Eval.setProperty ev es) (Eval.setProperty ev' es') := by
  cases h with
  | nil => exact .throw _
  | @cons key key' _ _ hk h =>
    cases h with
    | nil => exact .throw _
    | @cons value value' _ _ hv h =>
      cases h with
      | nil => exact .throw _
      | @cons target target' _ _ ht h =>
        cases h with
        | cons _ _ => exact .throw _
        | nil =>
          unfold Eval.setProperty
          simp only [← st.keyOf .setProperty hk]
          refine (Comparison.Sim.ofExcept fun _ _ => .same (.refl _)).bind
            fun w₁ k k' hw₁ hkk => ?_
          refine ((hev w target target' ht).later hw₁).bind fun w₂ t t' hw₂ htt => ?_
          refine ((hev w value value' hv).later (hw₁.trans hw₂)).bind fun w₃ v v' hw₃ hvv => ?_
          subst hkk
          exact .pure fun w₄ hw₄ => (st.values w₄).setProperty k
            (st.value_later (hw₃.trans hw₄) htt) (st.value_later hw₄ hvv)

theorem getProperty_sim {e e' : Expr} (h : X w e e') (hf : Eval.form? e = some .getProperty) :
    C.Sim V w (Eval.getProperty ev e.tail) (Eval.getProperty ev' e'.tail) := by
  have ht := st.tail h (by simp [hf])
  generalize e.tail = es at ht ⊢
  generalize e'.tail = es' at ht ⊢
  cases ht with
  | nil => exact .throw _
  | @cons key key' _ _ hk ht =>
    cases ht with
    | nil => exact .throw _
    | @cons target target' _ _ htarget ht =>
      cases ht with
      | cons _ _ => exact .throw _
      | nil =>
        unfold Eval.getProperty
        simp only [← st.keyOf .getProperty hk]
        refine (Comparison.Sim.ofExcept fun _ _ => .same (.refl _)).bind
          fun w₁ k k' hw₁ hkk => ?_
        refine ((hev w target target' htarget).later hw₁).bind fun w₂ t t' hw₂ htt => ?_
        subst hkk
        exact .pure fun w₃ hw₃ =>
          st.property k (st.code_later ((hw₁.trans hw₂).trans hw₃) h) hf (st.value_later hw₃ htt)

variable {invoke invoke' : Eval.Invoke} (hinv : Invokes C V invoke invoke')
include hinv

theorem apply_sim {es es' : List Expr} (h : List.Forall₂ (X w) es es') :
    C.Sim V w (Eval.apply ev invoke es) (Eval.apply ev' invoke' es') := by
  refine (st.nameAndElements_sim hev .apply h).bind ?_
  rintro w₁ ⟨name, vs⟩ ⟨name', vs'⟩ - ⟨rfl, hvs, hproc⟩
  exact hproc.bind fun w₂ p p' hw₂ hp => hinv w₂ name p p' vs vs' hp (st.values_later hw₂ hvs)

theorem map_sim {es es' : List Expr} (h : List.Forall₂ (X w) es es') :
    C.Sim V w (Eval.map ev invoke es) (Eval.map ev' invoke' es') := by
  refine (st.nameAndElements_sim hev .map h).bind ?_
  rintro w₁ ⟨name, vs⟩ ⟨name', vs'⟩ - ⟨rfl, hvs, hproc⟩
  refine hproc.bind fun w₂ p p' hw₂ hp => ?_
  -- the procedure stays related while the elements are gone through
  have hmap : C.Sim (fun w => List.Forall₂ (V w)) w₂ (vs.mapM fun v => invoke name p [v])
      (vs'.mapM fun v => invoke' name p' [v]) :=
    .mapM (V := V) (A := fun w v v' => V w v v' ∧ Procedure.Rel (V w) p p') st.value_later
      (fun hw h => ⟨st.value_later hw h.1, st.procedure_later hw h.2⟩)
      (fun w v v' h => hinv w name p p' [v] [v'] h.2 (.cons h.1 .nil))
      (hvs.imp fun v v' hv => ⟨st.value_later hw₂ hv, hp⟩)
  exact hmap.bind fun w₃ us us' hw₃ hus => .pure fun w₄ hw₄ =>
    (st.values w₄).list (st.values_later hw₄ hus)

theorem application_sim {e e' : Expr} (h : X w e e') (hf : Eval.form? e ≠ some .lambda) :
    C.Sim V w (Eval.application ev invoke e) (Eval.application ev' invoke' e') := by
  unfold Eval.application
  rw [← st.head h]
  cases hs : e.head.symbol? with
  | none => exact .throw _
  | some name =>
    have hargs : C.Sim (fun w => List.Forall₂ (V w)) w (e.tail.mapM ev) (e'.tail.mapM ev') :=
      .mapM (V := V) (A := X) st.value_later st.code_later hev (st.tail h hf)
    refine hargs.bind fun w₁ args args' hw₁ ha => ?_
    refine ((st.named_sim h (Atom.eq_symbol hs)).later hw₁).bind fun w₂ p p' hw₂ hp => ?_
    exact hinv w₂ name p p' args args' hp (st.values_later hw₂ ha)

omit hinv in
theorem target_sim {e e' : Expr} (h : X w e e') :
    C.Sim (fun w t t' => Target.Rel (V w) t t' ∧ ∀ name, t = .named name →
        C.Sim (fun w => Procedure.Rel (V w)) w (Eval.procedureNamed name)
          (Eval.procedureNamed name)) w
      (Eval.target ev e) (Eval.target ev' e') := by
  unfold Eval.target
  rw [← st.symbol? h]
  cases hs : e.symbol? with
  | some name =>
    refine .pure fun w₁ hw₁ => ⟨.named name, fun n hn => ?_⟩
    cases hn
    exact (st.named_sim h (Expr.head_of_symbol? hs)).later hw₁
  | none =>
    refine (hev w e e' h).bind fun w₁ v v' _ hv => ?_
    exact .pure fun _ hw₂ => ⟨.value (st.value_later hw₂ hv), nofun⟩

omit hev in
/-- the plot of a target over bounds, when these and the options have been evaluated -/
theorem targetPlot_sim {t t' : Eval.Target} {b b' o o' : Expr} (ht : Target.Rel (V w) t t')
    (hname : ∀ name, t = .named name → C.Sim (fun w => Procedure.Rel (V w)) w
      (Eval.procedureNamed name) (Eval.procedureNamed name))
    (hb : V w b b') (ho : V w o o') :
    C.Sim V w
      (t.procedure >>= fun x =>
        Action.sampling (Eval.sampleValue invoke x.1 x.2) (Plot.Continuous.plot b o))
      (t'.procedure >>= fun x =>
        Action.sampling (Eval.sampleValue invoke' x.1 x.2) (Plot.Continuous.plot b' o')) := by
  refine (st.targetProcedure_sim ht hname).bind ?_
  rintro w₁ ⟨name, p⟩ ⟨name', p'⟩ hw₁ ⟨rfl, hp⟩
  refine .sampling st.value_later ?_ fun x => st.sampleValue_sim hinv name hp x
  exact (st.values w₁).continuousPlot (st.value_later hw₁ hb) (st.value_later hw₁ ho)

theorem plotTarget_sim {f f' b b' : Expr} {o o' : Option Expr} (hf : X w f f') (hb : X w b b')
    (ho : Option.Rel (X w) o o') :
    C.Sim V w (Eval.plotTarget ev invoke f b o) (Eval.plotTarget ev' invoke' f' b' o') := by
  refine (st.target_sim hev hf).bind fun w₁ t t' hw₁ ⟨ht, hname⟩ => ?_
  refine ((hev w b b' hb).later hw₁).bind fun w₂ bv bv' hw₂ hbv => ?_
  -- with options and without, the rest is the same action of the options' value
  have plot : ∀ w₃ ov ov', w₂ ≤ w₃ → V w₃ ov ov' → C.Sim V w₃
      (t.procedure >>= fun x =>
        Action.sampling (Eval.sampleValue invoke x.1 x.2) (Plot.Continuous.plot bv ov))
      (t'.procedure >>= fun x =>
        Action.sampling (Eval.sampleValue invoke' x.1 x.2) (Plot.Continuous.plot bv' ov')) := by
    intro w₃ ov ov' hw₃ hov
    exact st.targetPlot_sim hinv (ht.imp fun v v' => st.value_later (hw₂.trans hw₃))
      (fun name hn => (hname name hn).later (hw₂.trans hw₃)) (st.value_later hw₃ hbv) hov
  cases ho with
  | some ho => exact ((hev w _ _ ho).later (hw₁.trans hw₂)).bind plot
  | none => exact Comparison.Sim.bind (.pure fun w' _ => (st.values w').list .nil) plot

theorem continuousPlot_sim {es es' : List Expr} (h : List.Forall₂ (X w) es es') :
    C.Sim V w (Eval.continuousPlot ev invoke es) (Eval.continuousPlot ev' invoke' es') := by
  cases h with
  | nil => exact .throw _
  | cons hf h =>
    cases h with
    | nil => exact .throw _
    | cons hb h =>
      cases h with
      | nil =>
        have plot := st.plotTarget_sim hev hinv hf hb .none
        exact plot
      | cons ho h =>
        cases h with
        | nil =>
          have plot := st.plotTarget_sim hev hinv hf hb (.some ho)
          exact plot
        | cons _ _ => exact .throw _

/-! ## Evaluation -/

theorem node_sim {e e' : Expr} (h : X w e e') :
    C.Sim V w (Eval.node ev invoke e) (Eval.node ev' invoke' e') := by
  have hform : Eval.form? e' = Eval.form? e := by
    unfold Eval.form?
    rw [st.head h]
  have hlist : e'.isList = e.isList := by
    unfold Expr.isList
    rw [st.head h]
  -- `begin`, `define`, `lambda` and applications are atoms when they have no children
  have leafOr : ∀ a b, C.Sim V w a b → C.Sim V w
      (if e.isLeaf && !e.isList then Eval.atomValue e.head else a)
      (if e'.isLeaf && !e'.isList then Eval.atomValue e'.head else b) := by
    intro a b hab
    rw [hlist, ← st.isLeaf h]
    by_cases hl : e.isLeaf && !e.isList
    · rw [if_pos hl, if_pos hl]
      exact st.atomValue_sim h
    · rw [if_neg hl, if_neg hl]
      exact hab
  have htail : ∀ form, Eval.form? e = some form → form ≠ .lambda →
      List.Forall₂ (X w) e.tail e'.tail := by
    intro form hf hne
    exact st.tail h (by simp [hf, hne])
  unfold Eval.node
  rw [hform]
  cases hf : Eval.form? e with
  | none => exact leafOr _ _ (st.application_sim hev hinv h (by simp [hf]))
  | some form =>
    cases form with
    | begin => exact leafOr _ _ (begin_sim hev (htail _ hf nofun))
    | define => exact leafOr _ _ (st.define_sim hev h hf)
    | lambda => exact leafOr _ _ (st.lambda h hf)
    | apply => exact st.apply_sim hev hinv (htail _ hf nofun)
    | map => exact st.map_sim hev hinv (htail _ hf nofun)
    | setProperty => exact st.setProperty_sim hev (htail _ hf nofun)
    | getProperty => exact st.getProperty_sim hev h hf
    | continuousPlot => exact st.continuousPlot_sim hev hinv (htail _ hf nofun)

end

/-- Evaluations to the same depth agree if they apply procedures in ways that agree. -/
theorem evalWith_sim {calls calls' : (Expr → Action Expr) → Eval.Invoke}
    (hcalls : ∀ ev ev', Evaluates C X V ev ev' → Invokes C V (calls ev) (calls' ev'))
    (depth : Nat) : Evaluates C X V (evalWith calls depth) (evalWith calls' depth) := by
  induction depth with
  | zero =>
    intro w e e' _
    refine Comparison.Sim.poll.bind fun _ _ _ _ _ => ?_
    exact (Comparison.Sim.record _ _).bind fun _ _ _ _ _ => .throw _
  | succ depth ih =>
    intro w e e' h
    refine Comparison.Sim.poll.bind fun w₁ _ _ hw₁ _ => ?_
    exact st.node_sim ih (hcalls _ _ ih) (st.code_later hw₁ h)

theorem eval_sim (depth : Nat) : Evaluates C X V (eval depth) (eval depth) := by
  rw [← evalWith_call]
  exact st.evalWith_sim (fun _ _ h => st.call_sim h) depth

end

end Staging

end ChartLisp
