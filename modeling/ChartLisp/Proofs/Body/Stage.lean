import ChartLisp.Proofs.Body.Twin

/-!
# Stages of a program and of a procedure with that program as its body

The program and the body go through the same steps.  At each stage the two scopes belong together in
a way that depends on what has been defined so far, and on whether a procedure is being called.

* `Stage`      how far the comparison of the two runs has come
* `Scopes`     the scopes that belong together at a stage
* `Reads`      what the code at a stage may define and read
* `Scopes.found`, `Scopes.define`, `Scopes.call`   names, definitions and calls on both sides
* `staging`    evaluation respects all of it
-/

namespace ChartLisp.Body

open ChartLisp.Action (Linked)

variable {K : Setting}

/-! ## Stages -/

structure Stage (K : Setting) where
  /-- whether the program itself is at work, and not a procedure that it calls -/
  top : Bool
  /-- the names that may be without a value in the body -/
  gap : String → Prop
  /-- the root of the program -/
  root : Bindings Expr
  constants : Extends Scope.baseline root
  names {n : String} : (Bindings.get? root n).isSome = true →
    (Bindings.get? Scope.baseline n).isSome = true ∨ K.defined n

/-- the root grows while the program itself is at work, and stays as it is during a call -/
structure Stage.Reaches (w w' : Stage K) : Prop where
  top : w.top = w'.top
  gap : w.gap = w'.gap
  root : Extends w.root w'.root
  call : w.top = false → w.root = w'.root

instance : Preorder (Stage K) where
  le := Stage.Reaches
  le_refl w := ⟨rfl, rfl, fun _ _ h => h, fun _ => rfl⟩
  le_trans a b c hab hbc :=
    { top := hab.top.trans hbc.top
      gap := hab.gap.trans hbc.gap
      root := fun n x hx => hbc.root n x (hab.root n x hx)
      call := fun h => (hab.call h).trans (hbc.call (hab.top ▸ h)) }

theorem Stage.reaches {w w' : Stage K} (hw : w ≤ w') : Stage.Reaches w w' := hw

theorem extends_insert {root : Bindings Expr} {n : String} (h : Bindings.get? root n = none)
    (x : Expr) : Extends root (Bindings.insert n x root) := by
  intro k y hy
  have hne : k ≠ n := by
    rintro rfl
    rw [h] at hy
    cases hy
  rw [Bindings.get?_insert, if_neg hne]
  exact hy

/-- the stage that a definition leads to if the program itself makes it -/
def Stage.defining (w : Stage K) {n : String} (hn : K.defined n)
    (hroot : Bindings.get? w.root n = none) (x : Expr) : Stage K where
  top := w.top
  gap := w.gap
  root := Bindings.insert n x w.root
  constants k y hy := extends_insert hroot x k y (w.constants k y hy)
  names {k} hk := by
    rw [Bindings.get?_insert] at hk
    by_cases hkn : k = n
    · exact .inr (hkn ▸ hn)
    · rw [if_neg hkn] at hk
      exact w.names hk

/-- the stage of a call in the given scope: what has no value there is in the gap -/
def Stage.calling (w : Stage K) (called : Scope) : Stage K where
  top := false
  gap n := called.lookup n = none
  root := w.root
  constants := w.constants
  names := w.names

/-- The scope of the body and that of the program.  The body is always inside of a call, of the
procedure or of a closure. -/
structure Scopes (w : Stage K) (s s' : Scope) : Prop where
  outer : s.root = K.outer
  inside : s.locals ≠ []
  root : s'.root = w.root
  top : s'.locals = [] ↔ w.top = true
  covers : Covers K w.root s.flattened s'.flattened
  /-- what is not in the gap has a value in the body -/
  known (n : String) : ¬ K.hidden n → ¬ w.gap n → (s.lookup n).isSome = true
  /-- and so has, in the program itself, what its root binds -/
  full (n : String) : w.top = true → ¬ K.hidden n → (Bindings.get? w.root n).isSome = true →
    (s.lookup n).isSome = true

/-- The same code on both sides.  A name in the gap that it reads, in a closure that it builds or in
the call that it belongs to, is read ahead if the program defines it at all. -/
structure Reads (w : Stage K) (e e' : Expr) : Prop where
  same : e = e'
  quiet (n : String) : e.Mentions n → ¬ K.hidden n
  defined (n : String) : w.top = true → e.Defines n → K.defined n
  built (l : Expr) (n : String) : w.top = true → e.Builds l → l.Free n → w.gap n → K.defined n →
    K.ahead n
  read (n : String) : w.top = false → e.Free n → w.gap n → K.defined n → K.ahead n

/-- The body may stop at a name that is read ahead.  Of programs that fail nothing is said. -/
def comparison (K : Setting) : Comparison (Stage K) where
  stop e := ∃ n, (e = .unbound n ∨ e = .notProcedure n) ∧ K.ahead n
  drop _ := True
  scopes := Scopes

/-! ## Names -/

theorem twin_of_baseline {root : Bindings Expr} {n : String} {x : Expr}
    (h : Bindings.get? Scope.baseline n = some x) : Twin K root x x := by
  have hevery : Scope.fresh.Every fun x => Twin K root x x := Scope.fresh_every fun _ => .leaf
  exact hevery.root (n, x) (Bindings.mem_of_get? h)

namespace Scopes

variable {w : Stage K} {s s' : Scope} {n : String}

theorem lookup_left (h : Scopes w s s') (hn : ¬ K.hidden n) :
    s.lookup n = (Bindings.get? s.flattened n).or (Bindings.get? Scope.baseline n) := by
  rw [Scope.lookup_eq, h.outer, K.outer_eq hn]

theorem lookup_right (h : Scopes w s s') :
    s'.lookup n = (Bindings.get? s'.flattened n).or (Bindings.get? w.root n) := by
  rw [Scope.lookup_eq, h.root]

/-- a name that the body finds is found by the program -/
theorem lookup_some (h : Scopes w s s') (hn : ¬ K.hidden n) {x : Expr} (hx : s.lookup n = some x) :
    ∃ x', s'.lookup n = some x' ∧ Twin K w.root x x' := by
  have hcovered := h.covers n hn
  rw [h.lookup_left hn] at hx
  rw [h.lookup_right]
  generalize Bindings.get? s.flattened n = y at hcovered hx
  generalize Bindings.get? s'.flattened n = y' at hcovered ⊢
  generalize hz : Bindings.get? w.root n = z at hcovered ⊢
  cases hcovered with
  | absent =>
    have hbase : Bindings.get? Scope.baseline n = some x := hx
    refine ⟨x, ?_, twin_of_baseline hbase⟩
    rw [← hz]
    exact w.constants n x hbase
  | @above y y' hv =>
    cases hx
    exact ⟨y', rfl, hv⟩
  | @root y y' hv =>
    cases hx
    exact ⟨y', rfl, hv⟩

theorem gap_of_lookup_none (h : Scopes w s s') (hn : ¬ K.hidden n) (hx : s.lookup n = none) :
    w.gap n := by
  by_contra hgap
  have hsome := h.known n hn hgap
  rw [hx] at hsome
  cases hsome

/-- A name that the program alone finds is one that it has defined, and stands in the gap.  A
procedure is being called then. -/
theorem lookup_none (h : Scopes w s s') (hn : ¬ K.hidden n) (hx : s.lookup n = none) {x' : Expr}
    (hx' : s'.lookup n = some x') : w.top = false ∧ w.gap n ∧ K.defined n := by
  have hcovered := h.covers n hn
  have hnone := hx
  rw [h.lookup_left hn, Option.or_eq_none_iff] at hnone
  rw [h.lookup_right] at hx'
  rw [hnone.1] at hcovered
  generalize Bindings.get? s'.flattened n = y' at hcovered hx'
  -- above its root the program has nothing that the body has not
  cases hcovered with
  | absent =>
    have hroot : (Bindings.get? w.root n).isSome = true := Option.isSome_of_eq_some hx'
    refine ⟨?_, h.gap_of_lookup_none hn hx, ?_⟩
    · by_contra htop
      have hsome := h.full n (Bool.eq_true_of_not_eq_false htop) hn hroot
      rw [hx] at hsome
      cases hsome
    · rcases w.names hroot with hbase | hdefined
      · rw [hnone.2] at hbase
        cases hbase
      · exact hdefined

/-- in the program itself the body has a value for all that the program has one for -/
theorem isSome_of_right (h : Scopes w s s') (htop : w.top = true) (hn : ¬ K.hidden n)
    (hx : (s'.lookup n).isSome = true) : (s.lookup n).isSome = true := by
  obtain ⟨x', hx'⟩ := Option.isSome_iff_exists.mp hx
  cases hl : s.lookup n with
  | some x => rfl
  | none =>
    have hfalse := (h.lookup_none hn hl hx').1
    rw [htop] at hfalse
    cases hfalse

/-- another gap that leaves out only what has a value -/
theorem regap (h : Scopes w s s') (gap : String → Prop)
    (hknown : ∀ n, ¬ K.hidden n → ¬ gap n → (s.lookup n).isSome = true) :
    Scopes { w with gap := gap } s s' :=
  ⟨h.outer, h.inside, h.root, h.top, h.covers, hknown, h.full⟩

theorem found (h : Scopes w s s') (hn : ¬ K.hidden n)
    (hread : w.top = false → w.gap n → K.defined n → K.ahead n) :
    (comparison K).Found n (Twin K w.root) (s.lookup n) (s'.lookup n) := by
  cases hx : s.lookup n with
  | some x =>
    obtain ⟨x', hx', hv⟩ := h.lookup_some hn hx
    rw [hx']
    exact .some hv
  | none =>
    cases hx' : s'.lookup n with
    | none => exact .none
    | some x' =>
      obtain ⟨htop, hgap, hdefined⟩ := h.lookup_none hn hx hx'
      have hahead := hread htop hgap hdefined
      exact .first ⟨n, .inl rfl, hahead⟩ ⟨n, .inr rfl, hahead⟩

/-! ## Definitions -/

theorem known_insert (h : Scopes w s s') (name : String) (v : Expr) (hn : ¬ K.hidden n)
    (hgap : ¬ w.gap n) : ((s.modify (Bindings.insert name v)).lookup n).isSome = true := by
  rw [Scope.lookup_modify_insert]
  by_cases hname : n = name
  · rw [if_pos hname]
    rfl
  · rw [if_neg hname]
    exact h.known n hn hgap

/-- a definition of the program itself goes into its root -/
theorem insert_top (h : Scopes w s s') (htop : w.top = true) {name : String} {v v' : Expr}
    (hd : K.defined name) (hroot : Bindings.get? w.root name = none)
    (hv : Twin K w.root v v') :
    Scopes (w.defining hd hroot v') (s.modify (Bindings.insert name v))
      (s'.modify (Bindings.insert name v')) := by
  obtain ⟨locals', root'⟩ := s'
  obtain rfl : locals' = [] := h.top.mpr htop
  obtain rfl : root' = w.root := h.root
  refine ⟨?_, ?_, rfl, h.top, ?_, fun n hn hgap => h.known_insert name v hn hgap,
    fun n _ hn hx => ?_⟩
  · rw [Scope.modify_root h.inside, h.outer]
  · rw [Ne, Scope.modify_locals_eq_nil]
    exact h.inside
  · rw [Scope.flattened_modify_insert h.inside]
    exact Covers.insert_root h.covers (extends_insert hroot v') hv
  · have hx : (Bindings.get? (Bindings.insert name v' w.root) n).isSome = true := hx
    rw [Bindings.get?_insert] at hx
    rw [Scope.lookup_modify_insert]
    by_cases hname : n = name
    · rw [if_pos hname]
      rfl
    · rw [if_neg hname] at hx ⊢
      exact h.full n htop hn hx

/-- a definition during a call goes above both roots -/
theorem insert_call (h : Scopes w s s') (htop : w.top = false) (name : String) {v v' : Expr}
    (hv : Twin K w.root v v') :
    Scopes w (s.modify (Bindings.insert name v)) (s'.modify (Bindings.insert name v')) := by
  have hinside : s'.locals ≠ [] := by
    rw [Ne, h.top, htop]
    exact Bool.false_ne_true
  refine ⟨?_, ?_, ?_, ?_, ?_, fun n hn hgap => h.known_insert name v hn hgap, fun n ht => ?_⟩
  · rw [Scope.modify_root h.inside, h.outer]
  · rw [Ne, Scope.modify_locals_eq_nil]
    exact h.inside
  · rw [Scope.modify_root hinside, h.root]
  · rw [Scope.modify_locals_eq_nil]
    exact h.top
  · rw [Scope.flattened_modify_insert h.inside, Scope.flattened_modify_insert hinside]
    exact h.covers.insert hv
  · rw [htop] at ht
    cases ht

theorem define (h : Scopes w s s') {name : String} {v v' : Expr} (hn : ¬ K.hidden name)
    (hd : w.top = true → K.defined name) (hv : Twin K w.root v v') :
    (comparison K).Outcome (fun u u' => ∃ w', w ≤ w' ∧ (comparison K).scopes w' u u')
      (s.define name v) (s'.define name v') := by
  cases hs' : s'.define name v' with
  | error e => exact .second trivial
  | ok u' =>
    obtain ⟨hb, hnone', rfl⟩ := Scope.define_eq_ok.mp hs'
    have hnone : s.lookup name = none := by
      cases hx : s.lookup name with
      | none => rfl
      | some x =>
        obtain ⟨x', hx', _⟩ := h.lookup_some hn hx
        rw [hnone'] at hx'
        cases hx'
    rw [Scope.define_eq_ok.mpr ⟨hb, hnone, rfl⟩]
    refine .ok ?_
    cases htop : w.top with
    | true =>
      have hroot : Bindings.get? w.root name = none := by
        rw [h.lookup_right, Option.or_eq_none_iff] at hnone'
        exact hnone'.2
      refine ⟨w.defining (hd htop) hroot v', ?_, h.insert_top htop (hd htop) hroot hv⟩
      refine ⟨rfl, rfl, extends_insert hroot v', fun hfalse => ?_⟩
      rw [htop] at hfalse
      cases hfalse
    | false => exact ⟨w, le_rfl, h.insert_call htop name hv⟩

/-! ## Closures -/

/-- The closure that is built in both scopes.  A name that the body has no value for is one of the
gap. -/
theorem closure_twin (h : Scopes w s s') {names : List String} {body : Expr}
    (hquiet : ∀ n, body.Mentions n → ¬ K.hidden n)
    (hahead : ∀ n, body.Free n → n ∉ names → w.gap n → K.defined n → K.ahead n) :
    Twin K w.root (Eval.closure names body s.flattened)
      (Eval.closure names body s'.flattened) := by
  have hcovered (n : String) (hn : ¬ K.hidden n) := covered_iff.mp (h.covers n hn)
  refine .closure rfl rfl rfl rfl rfl rfl (List.forall_mem_nil _) (fun n hm => ?_)
    (fun n hf hp hx hb => ?_) (fun n x x' hn => (hcovered n hn).1 x x')
    (fun n hn => (hcovered n hn).2.1) (fun n hn => (hcovered n hn).2.2)
  · exact hquiet n hm.of_mark
  · have hn : ¬ K.hidden n := hquiet n hf.of_mark.mentions
    have hnone : s.lookup n = none := by
      rw [h.lookup_left hn, Option.or_eq_none_iff]
      exact ⟨hx, hb⟩
    refine hahead n hf.of_mark (fun hmem => ?_) (h.gap_of_lookup_none hn hnone)
    exact hp (Expr.symbol n) (List.mem_map_of_mem hmem) rfl

theorem call (h : Scopes w s s') {c c' : Expr} (hc : Twin K w.root c c') (hl : c.isLambda = true)
    {m m' : Bindings Expr} (hm : Frame.Rel (Twin K w.root) m m') :
    Scopes (w.calling ⟨[m, c.captured], s.root⟩) ⟨[m, c.captured], s.root⟩
      ⟨[m', c'.captured], s'.root⟩ where
  outer := h.outer
  inside := nofun
  root := h.root
  top := ⟨nofun, nofun⟩
  covers := (hc.covers hl).call hm s.root s'.root
  known _ _ hgap := Option.isSome_iff_ne_none.mpr hgap
  full := nofun

/-- the body of a closure in such a call: what is missing is no parameter, was not copied, and is no
constant -/
theorem call_reads (h : Scopes w s s') {c c' params params' body body' : Expr}
    {rest rest' : List Expr} (hc : Twin K w.root c c') (hl : c.isLambda = true)
    (ht : c.tail = params :: body :: rest) (ht' : c'.tail = params' :: body' :: rest')
    {m : Bindings Expr} (hbound : ∀ p ∈ params.tail, ∀ name, p.symbol? = some name →
      Bindings.contains m name = true) :
    Reads (w.calling ⟨[m, c.captured], s.root⟩) body body' := by
  obtain ⟨_, _, hcode, hcode', hquiet, hahead⟩ := hc.code hl
  cases ht.symm.trans hcode
  cases ht'.symm.trans hcode'
  refine ⟨rfl, hquiet, nofun, nofun, fun n _ hfree hgap hd => ?_⟩
  have hnone : Scope.lookup ⟨[m, c.captured], s.root⟩ n = none := hgap
  rw [Scope.lookup_eq, Scope.get?_flattened_call, h.outer, K.outer_eq (hquiet n hfree.mentions),
    Option.or_eq_none_iff, Option.or_eq_none_iff] at hnone
  obtain ⟨⟨hm, hcaptured⟩, hbase⟩ := hnone
  refine hahead n hfree (fun p hp hname => ?_) hcaptured hbase hd
  have hsome := hbound p hp n hname
  unfold Bindings.contains at hsome
  rw [hm] at hsome
  cases hsome

end Scopes

namespace Reads

variable {w w' : Stage K} {e e' : Expr}

theorem later (hw : w ≤ w') (h : Reads w e e') : Reads w' e e' := by
  obtain ⟨htop, hgap, -, -⟩ := Stage.reaches hw
  obtain ⟨same, quiet, defined, built, read⟩ := h
  rw [htop] at defined built read
  rw [hgap] at built read
  exact ⟨same, quiet, defined, built, read⟩

/-- the children of a node that is no procedure are evaluated where it stands -/
theorem child (h : Reads w e e') (hf : Eval.form? e ≠ some .lambda) :
    List.Forall₂ (Reads w) e.tail e'.tail := by
  obtain ⟨rfl, quiet, defined, built, read⟩ := h
  have hl : e.head ≠ .symbol Form.lambda.name := fun hh => hf (Eval.form?_of_head hh)
  refine List.forall₂_same.mpr fun c hc => ⟨rfl, fun n hm => ?_, fun n ht hd => ?_,
    fun l n ht hb => ?_, fun n ht hr => ?_⟩
  · exact quiet n (.child hc hm)
  · exact defined n ht (.child hl hc hd)
  · exact built l n ht (.child hl hc hb)
  · exact read n ht (.child hl hc hr)

/-- a procedure that the code builds reads what the code may read -/
theorem procedure (h : Reads w e e') (hl : e.head = .symbol Form.lambda.name) {n : String}
    (hf : e.Free n) (hgap : w.gap n) (hd : K.defined n) : K.ahead n := by
  cases htop : w.top with
  | true => exact h.built e n htop (.here hl) hf hgap hd
  | false => exact h.read n htop hf hgap hd

theorem lambda_sim (h : Reads w e e') (hf : Eval.form? e = some .lambda) :
    (comparison K).Sim (fun w => Twin K w.root) w (Eval.lambda e.tail) (Eval.lambda e'.tail) := by
  obtain rfl := h.same
  have hhead := Eval.head_eq_of_form? hf
  match ht : e.tail with
  | [] => exact .throw _
  | [_] => exact .throw _
  | _ :: _ :: _ :: _ => exact .throw _
  | [params, body] =>
    have hnames := SameOutcome.refl_ok (Eval.parameterNames [] (Eval.declared params))
    refine Comparison.Sim.bind (.ofExcept fun _ _ => .same hnames) fun w₁ ns ns' hw₁ hns => ?_
    obtain ⟨rfl, hok⟩ := hns
    obtain rfl := Eval.parameters_eq_of_parameterNames hok
    refine .get_bind fun w₂ r r' hw₂ hr => .pure fun w₃ hw₃ => ?_
    have hlater := h.later (hw₁.trans hw₂)
    refine Twin.later (Stage.reaches hw₃).root
      (hr.scope.closure_twin (fun n hm => ?_) fun n hfree hn => ?_)
    · have hbody : body ∈ e.tail := by simp [ht]
      exact h.quiet n (.child hbody hm)
    · exact hlater.procedure hhead (.body hhead ht hn hfree)

end Reads

/-! ## Evaluation -/

theorem staging (K : Setting) :
    Staging (comparison K) Reads (fun w => Twin K w.root) where
  values w := Twin.congruence K w.root
  value_later hw h := h.later (Stage.reaches hw).root
  code_later hw h := h.later hw
  head h := h.same ▸ rfl
  count h := h.same ▸ rfl
  tail h hf := h.child hf
  lookup h hname hs :=
    hs.found (h.quiet _ (.head hname)) fun htop => h.read _ htop (.head hname)
  define {_ _ _ e _ target _ _ name} h hf ht hn hs hv := by
    have hmentions : e.Mentions name :=
      .child (List.mem_of_mem_head? ht) (.head (Expr.head_of_symbol? hn))
    exact hs.define (h.quiet name hmentions)
      (fun htop => h.defined name htop (.here (Eval.head_eq_of_form? hf) ht hn)) hv
  lambda h hf := h.lambda_sim hf
  isLambda h := h.isLambda
  property key _ _ ht := ht.property key
  code hc hl := by
    obtain ⟨params, body, ht, ht', -⟩ := hc.code hl
    rw [ht, ht']
    exact .entered rfl trivial
  enter {w s _ c _ _ _ _ _ _ _ m _} hs hc hl ht ht' hm hbound := by
    -- the call has a stage of its own, which ends with it: no root changes in between
    refine ⟨w.calling ⟨[m, c.captured], s.root⟩, hs.call hc hl hm,
      hs.call_reads hc hl ht ht' hbound, fun w' v v' hw hv => ?_⟩
    have hroot : w.root = w'.root := (Stage.reaches hw).call rfl
    rw [hroot]
    exact hv

end ChartLisp.Body
