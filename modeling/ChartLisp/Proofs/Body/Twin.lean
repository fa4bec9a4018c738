import ChartLisp.Proofs.Body.Names
import ChartLisp.Proofs.Nesting
import ChartLisp.Proofs.Simulation.Staging

/-!
# The values of a program and of a procedure with that program as its body

Run as the body of a procedure, a program makes its definitions in the scope of a call, and its
closures copy them.  Run by itself it makes them in the root, where its closures look them up.

* `Body.Setting`    what of the program and of the procedure matters for the comparison
* `Body.Twin`       values of the two runs: the same trees, with the same procedures in them.  What
                    a closure of the body has copied is what the other one finds
* `Body.Covers`     the same between the bindings that closures copied, or that scopes hold
* `Twin.later`      twins are twins when the root has grown
* `Twin.congruence`  built-in procedures keep twins
* `Twin.eq_of_closureFree`  twins without closures are the same
-/

namespace ChartLisp

/-- the bindings above the root in a call: the arguments hide what the closure has captured -/
theorem Scope.get?_flattened_call (m c root : Bindings Expr) (n : String) :
    Bindings.get? (Scope.flattened ⟨[m, c], root⟩) n =
      (Bindings.get? m n).or (Bindings.get? c n) := by
  show Bindings.get? (Bindings.overlay m (Bindings.overlay c [])) n = _
  rw [Bindings.get?_overlay, Bindings.get?_overlay, Bindings.get?_nil, Option.or_none]

namespace Body

structure Setting where
  /-- the names of the procedure and its parameter, which the program does not mention -/
  hidden : String → Prop
  /-- the names that the program defines -/
  defined : String → Prop
  /-- the names that the program may read in a closure built before they are defined -/
  ahead : String → Prop
  /-- the root of the body: the constants, and the procedure itself -/
  outer : Bindings Expr
  outer_eq {n : String} : ¬ hidden n → Bindings.get? outer n = Bindings.get? Scope.baseline n

variable (K : Setting)

/-- Values of the body and of the program, whose root is `root` by now.  A name that a closure of the
body reads without having copied it is either never defined by the program, or read ahead. -/
inductive Twin (root : Bindings Expr) : Expr → Expr → Prop where
  | tree {v v' : Expr} (hl : v.isLambda = false) (hh : v.head = v'.head) (hm : v.isBody = v'.isBody)
      (hc : v.captured = []) (hc' : v'.captured = []) (hlen : v.tail.length = v'.tail.length)
      (ht : ∀ p ∈ v.tail.zip v'.tail, Twin root p.1 p.2)
      (hkeys : v.properties.map Prod.fst = v'.properties.map Prod.fst)
      (hp : ∀ p ∈ v.properties.zip v'.properties, Twin root p.1.2 p.2.2) : Twin root v v'
  | closure {v v' params body : Expr} (hl : v.isLambda = true) (hh : v.head = v'.head)
      (hm : v.isBody = v'.isBody) (ht : v.tail = [params, body]) (ht' : v'.tail = [params, body])
      (hkeys : v.properties.map Prod.fst = v'.properties.map Prod.fst)
      (hp : ∀ p ∈ v.properties.zip v'.properties, Twin root p.1.2 p.2.2)
      (hquiet : ∀ n, body.Mentions n → ¬ K.hidden n)
      (hahead : ∀ n, body.Free n → (∀ p ∈ params.tail, p.symbol? ≠ some n) →
        Bindings.get? v.captured n = none → Bindings.get? Scope.baseline n = none →
        K.defined n → K.ahead n)
      (hvalue : ∀ n x x', ¬ K.hidden n → Bindings.get? v.captured n = some x →
        (Bindings.get? v'.captured n).or (Bindings.get? root n) = some x' → Twin root x x')
      (hseen : ∀ n, ¬ K.hidden n → (Bindings.get? v.captured n).isSome = true →
        ((Bindings.get? v'.captured n).or (Bindings.get? root n)).isSome = true)
      (hown : ∀ n, ¬ K.hidden n → (Bindings.get? v'.captured n).isSome = true →
        (Bindings.get? v.captured n).isSome = true) : Twin root v v'

/-- The values of a name above the root of the body, above the root of the program, and in that
root.  Where the body has bound it, the program has, there or in the root. -/
inductive Covered (V : Expr → Expr → Prop) : Option Expr → Option Expr → Option Expr → Prop where
  | absent (z : Option Expr) : Covered V none none z
  | above {x x' : Expr} (h : V x x') (z : Option Expr) : Covered V (some x) (some x') z
  | root {x x' : Expr} (h : V x x') : Covered V (some x) none (some x')

theorem covered_iff {V : Expr → Expr → Prop} {x y z : Option Expr} :
    Covered V x y z ↔ (∀ a b, x = some a → y.or z = some b → V a b) ∧
      (x.isSome = true → (y.or z).isSome = true) ∧ (y.isSome = true → x.isSome = true) := by
  constructor
  · intro h
    cases h with
    | absent z => exact ⟨nofun, nofun, nofun⟩
    | above h z =>
      refine ⟨fun a b ha hb => ?_, fun _ => rfl, fun _ => rfl⟩
      cases ha
      cases hb
      exact h
    | root h =>
      refine ⟨fun a b ha hb => ?_, fun _ => rfl, nofun⟩
      cases ha
      cases hb
      exact h
  · rintro ⟨hvalue, hseen, hown⟩
    cases x with
    | none =>
      cases y with
      | none => exact .absent z
      | some y => cases hown rfl
    | some x =>
      cases y with
      | some y => exact .above (hvalue x y rfl rfl) z
      | none =>
        cases z with
        | none => cases hseen rfl
        | some z => exact .root (hvalue x z rfl rfl)

/-- what the body has bound above its root, and what the program has -/
def Covers (root c c' : Bindings Expr) : Prop :=
  ∀ n, ¬ K.hidden n →
    Covered (Twin K root) (Bindings.get? c n) (Bindings.get? c' n) (Bindings.get? root n)

/-- the second map gives every name of the first the same value -/
def Extends (root root' : Bindings Expr) : Prop :=
  ∀ n x, Bindings.get? root n = some x → Bindings.get? root' n = some x

variable {K} {root root' : Bindings Expr} {v v' : Expr}

/-- what was found before is found again -/
theorem Extends.or_eq (h : Extends root root') {x : Option Expr} {n : String}
    (hs : (x.or (Bindings.get? root n)).isSome = true) :
    x.or (Bindings.get? root' n) = x.or (Bindings.get? root n) := by
  cases x with
  | some y => rfl
  | none =>
    obtain ⟨y, hy⟩ := Option.isSome_iff_exists.mp hs
    rw [hy]
    exact h n y hy

namespace Twin

/-! ## The two sides of a pair of twins -/

theorem head (h : Twin K root v v') : v.head = v'.head := by
  cases h with
  | tree _ hh => exact hh
  | closure _ hh => exact hh

theorem isLambda (h : Twin K root v v') : v.isLambda = v'.isLambda := by
  unfold Expr.isLambda
  rw [h.head]

/-- closures have the same code, and what it reads was copied unless it is read ahead -/
theorem code (h : Twin K root v v') (hl : v.isLambda = true) :
    ∃ params body, v.tail = [params, body] ∧ v'.tail = [params, body] ∧
      (∀ n, body.Mentions n → ¬ K.hidden n) ∧
      ∀ n, body.Free n → (∀ p ∈ params.tail, p.symbol? ≠ some n) →
        Bindings.get? v.captured n = none → Bindings.get? Scope.baseline n = none →
        K.defined n → K.ahead n := by
  cases h with
  | tree hl' => rw [hl] at hl'; cases hl'
  | closure _ _ _ ht ht' _ _ hquiet hahead => exact ⟨_, _, ht, ht', hquiet, hahead⟩

theorem covers (h : Twin K root v v') (hl : v.isLambda = true) :
    Covers K root v.captured v'.captured := by
  cases h with
  | tree hl' => rw [hl] at hl'; cases hl'
  | closure _ _ _ _ _ _ _ _ _ hvalue hseen hown =>
    exact fun n hn => covered_iff.mpr ⟨fun a b => hvalue n a b hn, hseen n hn, hown n hn⟩

theorem length_tail (h : Twin K root v v') : v.tail.length = v'.tail.length := by
  cases h with
  | tree _ _ _ _ _ hlen => exact hlen
  | closure _ _ _ ht ht' => rw [ht, ht']

theorem isLeaf (h : Twin K root v v') : v.isLeaf = v'.isLeaf := by
  unfold Expr.isLeaf
  rw [Bool.eq_iff_iff, List.isEmpty_iff_length_eq_zero, List.isEmpty_iff_length_eq_zero,
    h.length_tail]

theorem tail_of_tree (h : Twin K root v v') (hl : v.isLambda = false) :
    List.Forall₂ (Twin K root) v.tail v'.tail := by
  cases h with
  | tree _ _ _ _ _ hlen ht =>
    exact List.forall₂_iff_zip.mpr ⟨hlen, fun {a b} hab => ht (a, b) hab⟩
  | closure hl' => rw [hl] at hl'; cases hl'

end Twin

/-! ## Properties -/

/-- maps that agree in their names, place by place -/
theorem bindings_rel_iff {V : Expr → Expr → Prop} {p p' : Bindings Expr} :
    Bindings.Rel (fun _ => True) V p p' ↔
      p.map Prod.fst = p'.map Prod.fst ∧ ∀ q ∈ p.zip p', V q.1.2 q.2.2 := by
  constructor
  · intro h
    induction h with
    | nil => exact ⟨rfl, List.forall_mem_nil _⟩
    | cons hq _ ih =>
      refine ⟨?_, List.forall_mem_cons.mpr ⟨hq.2.2, ih.2⟩⟩
      rw [List.map_cons, List.map_cons, hq.1, ih.1]
  · rintro ⟨hkeys, hvalues⟩
    induction p generalizing p' with
    | nil =>
      obtain rfl : p' = [] := List.map_eq_nil_iff.mp hkeys.symm
      exact .nil
    | cons q p ih =>
      obtain ⟨q', p', rfl, hq, hp⟩ := List.map_eq_cons_iff.mp hkeys.symm
      obtain ⟨hv, hvs⟩ := List.forall_mem_cons.mp hvalues
      exact .cons ⟨hq.symm, trivial, hv⟩ (ih hp.symm hvs)

namespace Twin

theorem properties (h : Twin K root v v') :
    Bindings.Rel (fun _ => True) (Twin K root) v.properties v'.properties := by
  cases h with
  | tree _ _ _ _ _ _ _ hkeys hp => exact bindings_rel_iff.mpr ⟨hkeys, hp⟩
  | closure _ _ _ _ _ hkeys hp => exact bindings_rel_iff.mpr ⟨hkeys, hp⟩

/-- the same values with other properties -/
theorem annotate {p p' : Bindings Expr} (h : Twin K root v v')
    (hp : Bindings.Rel (fun _ => True) (Twin K root) p p') :
    Twin K root { v with properties := p } { v' with properties := p' } := by
  obtain ⟨hkeys, hvalues⟩ := bindings_rel_iff.mp hp
  cases h with
  | tree hl hh hm hc hc' hlen ht => exact .tree hl hh hm hc hc' hlen ht hkeys hvalues
  | closure hl hh hm ht ht' _ _ hquiet hahead hvalue hseen hown =>
    exact .closure hl hh hm ht ht' hkeys hvalues hquiet hahead hvalue hseen hown

theorem node {a : Atom} (ha : a.symbol? ≠ some Expr.lambdaName) {es es' : List Expr}
    (h : List.Forall₂ (Twin K root) es es') : Twin K root (Expr.node a es) (Expr.node a es') := by
  obtain ⟨hlen, hzip⟩ := List.forall₂_iff_zip.mp h
  exact .tree (beq_eq_false_iff_ne.mpr ha) rfl rfl rfl rfl hlen (fun p hp => hzip hp) rfl
    (List.forall_mem_nil _)

theorem leaf {a : Atom} (ha : a.symbol? = none) : Twin K root (Expr.leaf a) (Expr.leaf a) :=
  node (by simp [ha]) .nil

theorem property (h : Twin K root v v') (key : String) :
    Twin K root (v.property key) (v'.property key) := by
  have hget := h.properties.get? key
  unfold Expr.property
  generalize Bindings.get? v.properties key = x at hget ⊢
  generalize Bindings.get? v'.properties key = y at hget ⊢
  cases hget with
  | none => exact leaf rfl
  | some hv => exact hv

/-! ## What can be seen of twins -/

theorem render (h : Twin K root v v') : v.render = v'.render := by
  have hcongr : ∀ {e e' : Expr}, e.head = e'.head → e.isBody = e'.isBody →
      e.tail.map Expr.render = e'.tail.map Expr.render → e.render = e'.render := by
    rintro ⟨a, t, p, c, l⟩ ⟨a', t', p', c', l'⟩ rfl rfl ht
    have hhides : Expr.hidesHead ⟨a, t, p, c, l⟩ = Expr.hidesHead ⟨a, t', p', c', l⟩ := rfl
    simp only at ht
    cases a <;> simp only [Expr.render, hhides, Expr.renderAll_eq_map, ht]
  induction h with
  | tree _ hh hm _ _ hlen _ _ _ iht _ =>
    refine hcongr hh hm ?_
    rw [← List.forall₂_eq_eq_eq, List.forall₂_map_left_iff, List.forall₂_map_right_iff]
    exact List.forall₂_iff_zip.mpr ⟨hlen, fun {a b} hab => iht (a, b) hab⟩
  | closure _ hh hm ht ht' => exact hcongr hh hm (by rw [ht, ht'])

theorem congruence (K : Setting) (root : Bindings Expr) : Congruence (Twin K root) where
  atom _ ha := leaf ha
  list h := node (by decide) h
  setProperty _ ht hv := ht.annotate (ht.properties.insert trivial hv)
  elements {v v'} h := by
    have hlist : v.isList = v'.isList := by
      unfold Expr.isList
      rw [h.head]
    unfold Expr.elements?
    rw [← hlist]
    by_cases hl : v.isList
    · rw [if_pos hl, if_pos hl]
      have hlambda : v.isLambda = false := by
        unfold Expr.isList at hl
        unfold Expr.isLambda
        rw [eq_of_beq hl]
        rfl
      exact .some (h.tail_of_tree hlambda)
    · rw [if_neg hl, if_neg hl]
      exact .none
  number h := by
    unfold Expr.number?
    rw [h.isLeaf, h.head]
  complex h := by
    unfold Expr.complex?
    rw [h.isLeaf, h.head]
  string h := by
    unfold Expr.string?
    rw [h.isLeaf, h.head]
  render h := h.render

/-- twins without closures are the same -/
theorem eq_of_closureFree (h : Twin K root v v') (hf : v'.ClosureFree) : v = v' := by
  induction h with
  | @tree v v' _ hh hm hc hc' hlen _ hkeys _ iht ihp =>
    cases hf with
    | intro _ hft hfp _ =>
      have htail : v.tail = v'.tail := by
        rw [← List.forall₂_eq_eq_eq]
        refine List.forall₂_iff_zip.mpr ⟨hlen, fun {a b} hab => ?_⟩
        exact iht (a, b) hab (hft b (List.of_mem_zip hab).2)
      have hproperties : v.properties = v'.properties := by
        have hrel : Bindings.Rel (fun _ => True) Eq v.properties v'.properties :=
          bindings_rel_iff.mpr ⟨hkeys, fun q hq => ihp q hq (hfp q.2 (List.of_mem_zip hq).2)⟩
        rw [← List.forall₂_eq_eq_eq]
        exact hrel.imp fun p p' hp => Prod.ext hp.1 hp.2.2
      obtain ⟨a, t, p, c, l⟩ := v
      obtain ⟨a', t', p', c', l'⟩ := v'
      simp only at hh hm hc hc' htail hproperties
      subst hh hm hc hc' htail hproperties
      rfl
  | closure hl hh =>
    have hlambda := hf.isLambda
    unfold Expr.isLambda at hl hlambda
    rw [← hh, hl] at hlambda
    cases hlambda

/-! ## Later roots -/

theorem later (hroot : Extends root root') (h : Twin K root v v') : Twin K root' v v' := by
  induction h with
  | tree hl hh hm hc hc' hlen _ hkeys _ iht ihp =>
    exact .tree hl hh hm hc hc' hlen iht hkeys ihp
  | closure hl hh hm ht ht' hkeys _ hquiet hahead hvalue hseen hown ihp ihvalue =>
    refine .closure hl hh hm ht ht' hkeys ihp hquiet hahead (fun n x x' hn hx hx' => ?_)
      (fun n hn hx => ?_) hown
    · rw [hroot.or_eq (hseen n hn (Option.isSome_of_eq_some hx))] at hx'
      exact ihvalue n x x' hn hx hx'
    · rw [hroot.or_eq (hseen n hn hx)]
      exact hseen n hn hx

end Twin

/-! ## Bindings -/

namespace Covers

variable {c c' m m' : Bindings Expr} {name : String}

theorem later (hroot : Extends root root') (h : Covers K root c c') : Covers K root' c c' := by
  intro n hn
  have hcovered := h n hn
  generalize Bindings.get? c n = x at hcovered ⊢
  generalize Bindings.get? c' n = y at hcovered ⊢
  generalize hz : Bindings.get? root n = z at hcovered
  cases hcovered with
  | absent => exact .absent _
  | above hv => exact .above (hv.later hroot) _
  | root hv =>
    rw [hroot n _ hz]
    exact .root (hv.later hroot)

/-- a definition that is made above both roots -/
theorem insert (h : Covers K root c c') (hv : Twin K root v v') :
    Covers K root (Bindings.insert name v c) (Bindings.insert name v' c') := by
  intro n hn
  rw [Bindings.get?_insert, Bindings.get?_insert]
  by_cases hname : n = name
  · rw [if_pos hname, if_pos hname]
    exact .above hv _
  · rw [if_neg hname, if_neg hname]
    exact h n hn

/-- a definition that the body makes in the scope of its call and the program in its root -/
theorem insert_root (h : Covers K root c []) (hroot : Extends root (Bindings.insert name v' root))
    (hv : Twin K root v v') :
    Covers K (Bindings.insert name v' root) (Bindings.insert name v c) [] := by
  intro n hn
  rw [Bindings.get?_insert]
  by_cases hname : n = name
  · rw [if_pos hname, Bindings.get?_insert, if_pos hname]
    exact .root (hv.later hroot)
  · rw [if_neg hname]
    exact h.later hroot n hn

/-- the bindings of a call: the arguments over what the closure has copied -/
theorem call (h : Covers K root c c') (hm : Frame.Rel (Twin K root) m m')
    (r r' : Bindings Expr) :
    Covers K root (Scope.flattened ⟨[m, c], r⟩) (Scope.flattened ⟨[m', c'], r'⟩) := by
  intro n hn
  have hget := hm.get? n
  rw [Scope.get?_flattened_call, Scope.get?_flattened_call]
  generalize Bindings.get? m n = x at hget ⊢
  generalize Bindings.get? m' n = y at hget ⊢
  cases hget with
  | none => exact h n hn
  | some hv => exact .above hv _

end Covers

end Body

end ChartLisp
