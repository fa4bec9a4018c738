import ChartLisp.Proofs.Application
import ChartLisp.Proofs.Outcome

/-!
# Applying a procedure to each element of a list

`(map f (list e₁ … eₙ))` evaluates all arguments, finds `f` once, and calls it for each value;
`(list (f e₁) … (f eₙ))` does the three things for each argument in turn, with the calls one level
deeper.  Arguments that define nothing, and calls, leave the scope alone, so the order makes no
difference; the levels do only if the limit is reached.

* `mapM_eq_ok`, `mapM_eq_ok_or_error`   the value of a sequence, element by element
* `Yields s f few many e w`   `(f e)` comes to `w`, with the given room for `e` and for the call
* `outcome_call_one`, `outcome_each`, `outcome_map`   the values of the three ways to apply `f`
* `eval_map_eq_calls`         `map` and the list of applications have the same values
-/

namespace ChartLisp

open ChartLisp.Action (Answers)

/-! ## Values of sequences -/

section
variable {ε α β γ : Type}

theorem bind_eq_ok {x : Except ε α} {k : α → Except ε β} {y : β} :
    (x >>= k) = .ok y ↔ ∃ v, x = .ok v ∧ k v = .ok y := by
  cases x with
  | error e => exact ⟨nofun, fun ⟨_, h, _⟩ => nomatch h⟩
  | ok v => exact ⟨fun h => ⟨v, rfl, h⟩, fun ⟨_, h, hk⟩ => by cases h; exact hk⟩

theorem mapM_eq_ok {f : α → Except ε β} {xs : List α} {ys : List β} :
    xs.mapM f = .ok ys ↔ List.Forall₂ (fun x y => f x = .ok y) xs ys := by
  induction xs generalizing ys with
  | nil =>
    rw [List.mapM_nil, List.forall₂_nil_left_iff]
    exact ⟨fun h => (Except.ok.inj h).symm, fun h => h ▸ rfl⟩
  | cons x xs ih =>
    simp only [List.mapM_cons, bind_eq_ok, ih, List.forall₂_cons_left_iff]
    constructor
    · rintro ⟨y, hy, ws, hws, h⟩
      exact ⟨y, ws, hy, hws, (Except.ok.inj h).symm⟩
    · rintro ⟨y, ws, hy, hws, rfl⟩
      exact ⟨y, hy, ws, hws, rfl⟩

/-- if each of the elements has its value or fails in one way, so does the sequence -/
theorem mapM_eq_ok_or_error {f : α → Except ε β} {e : ε} {xs : List α} {ys : List β}
    (h : List.Forall₂ (fun x y => f x = .ok y ∨ f x = .error e) xs ys) :
    xs.mapM f = .ok ys ∨ xs.mapM f = .error e := by
  induction h with
  | nil => exact .inl rfl
  | cons hx _ ih =>
    rw [List.mapM_cons]
    rcases hx with hx | hx
    · rw [hx]
      rcases ih with ih | ih
      · rw [ih]
        exact .inl rfl
      · rw [ih]
        exact .inr rfl
    · rw [hx]
      exact .inr rfl

theorem forall₂_comp {R : α → β → Prop} {S : β → γ → Prop} {xs : List α} {zs : List γ} :
    (∃ ys, List.Forall₂ R xs ys ∧ List.Forall₂ S ys zs) ↔
      List.Forall₂ (Relation.Comp R S) xs zs := by
  constructor
  · rintro ⟨ys, hxy, hyz⟩
    induction hxy generalizing zs with
    | nil =>
      cases hyz
      exact .nil
    | cons hr _ ih =>
      cases hyz with
      | cons hs hyz => exact .cons ⟨_, hr, hs⟩ (ih hyz)
  · intro h
    induction h with
    | nil => exact ⟨[], .nil, .nil⟩
    | cons h _ ih =>
      obtain ⟨y, hr, hs⟩ := h
      obtain ⟨ys, hxy, hyz⟩ := ih
      exact ⟨y :: ys, .cons hr hxy, .cons hs hyz⟩

end

/-! ## The forms -/

theorem Form.ofName?_name (form : Form) : Form.ofName? form.name = some form := by
  cases form <;> rfl

namespace Expr

/-- `(map name (list e₁ … eₙ))` -/
def mapped (name : String) (es : List Expr) : Expr := call Form.map.name [symbol name, list es]

/-- `(list (name e₁) … (name eₙ))` -/
def each (name : String) (es : List Expr) : Expr := list (es.map fun e => call name [e])

variable {name : String} (hf : Form.ofName? name = none) {form : Form} {es : List Expr}
  (he : ∀ e ∈ es, e.Avoids form)
include hf he

theorem call_avoids : (call name es).Avoids form := by
  refine .intro ?_ he
  intro hname
  obtain rfl := Atom.symbol.inj hname
  rw [Form.ofName?_name] at hf
  cases hf

omit hf in
theorem list_avoids : (list es).Avoids form := call_avoids (rfl : Form.ofName? listName = none) he

theorem calls_avoid : ∀ c ∈ es.map fun e => call name [e], c.Avoids form := by
  intro c hc
  obtain ⟨e, hmem, rfl⟩ := List.mem_map.mp hc
  exact call_avoids hf (List.forall_mem_singleton.mpr (he e hmem))

theorem each_avoids : (each name es).Avoids form := list_avoids (calls_avoid hf he)

theorem mapped_avoids (hform : form ≠ .map) : (mapped name es).Avoids form := by
  have hname : (symbol name).Avoids form := call_avoids hf (List.forall_mem_nil _)
  have hrest : ∀ e ∈ [list es], e.Avoids form := List.forall_mem_singleton.mpr (list_avoids he)
  refine .intro ?_ (List.forall_mem_cons.mpr ⟨hname, hrest⟩)
  intro hhead
  have hmap : Form.map.name = form.name := Atom.symbol.inj hhead
  have hsome : some form = some Form.map := by
    rw [← Form.ofName?_name, ← hmap, Form.ofName?_name]
  exact hform (Option.some.inj hsome)

end Expr

/-! ## What they answer -/

namespace Eval

variable {s : Scope}

theorem list_answers (depth : Nat) {es : List Expr} (he : ∀ e ∈ es, e.Avoids .define) :
    Answers s (eval (depth + 1) (Expr.list es)) (do
      let vs ← es.mapM fun e => (eval depth e).outcome s
      return Expr.list vs) := by
  refine eval_succ_answers ?_
  rw [node_list]
  refine (Answers.mapM fun e hmem => eval_answers depth (he e hmem)).bind ?_
  intro vs _ r hr
  exact ⟨_, exec_applied_list vs r, hr.scope, hr.raised⟩

theorem call_one_answers (depth : Nat) {name : String} (hf : Form.ofName? name = none) {e : Expr}
    (he : e.Avoids .define) :
    Answers s (eval (depth + 1) (Expr.call name [e])) (do
      let v ← (eval depth e).outcome s
      let p ← s.procedure name
      (call (eval depth) name p [v]).outcome s) := by
  refine eval_succ_answers ?_
  rw [node_call hf (List.cons_ne_nil e []), List.mapM_cons, List.mapM_nil, bind_assoc]
  refine (eval_answers depth he).bind fun v _ => ?_
  rw [pure_bind, pure_bind]
  exact (procedureNamed_answers name).bind fun p hp => call_answers hp [v] depth

theorem nameAndElements_answers {ev : Expr → Action Expr} {e : Expr}
    {x : Except EvalError (List Expr)} (form : Form) (name : String)
    (h : Answers s (ev e) (x >>= fun vs => return Expr.list vs)) :
    Answers s (nameAndElements ev form [Expr.symbol name, e])
      (x >>= fun vs => return (name, vs)) := by
  intro r hr
  obtain ⟨r', hexec, hr'⟩ := h r hr
  refine ⟨r', ?_, hr'⟩
  cases x with
  | error err => exact exec_nameAndElements_error form name hexec
  | ok vs => exact exec_nameAndElements_ok form name hexec

theorem map_answers (depth : Nat) (name : String) {es : List Expr}
    (he : ∀ e ∈ es, e.Avoids .define) :
    Answers s (eval (depth + 2) (Expr.mapped name es)) (do
      let vs ← es.mapM fun e => (eval depth e).outcome s
      let p ← s.procedure name
      let ws ← vs.mapM fun v => (call (eval (depth + 1)) name p [v]).outcome s
      return Expr.list ws) := by
  have hcalls : ∀ x : String × List Expr,
      Answers s (do
        let p ← procedureNamed x.1
        let ws ← x.2.mapM fun v => call (eval (depth + 1)) x.1 p [v]
        return Expr.list ws) (do
        let p ← s.procedure x.1
        let ws ← x.2.mapM fun v => (call (eval (depth + 1)) x.1 p [v]).outcome s
        return Expr.list ws) := by
    intro x
    refine (procedureNamed_answers x.1).bind fun p hp => ?_
    refine (Answers.mapM fun v _ => call_answers hp [v] (depth + 1)).bind fun ws _ => ?_
    exact Answers.pure (Expr.list ws)
  have hargs := nameAndElements_answers .map name (list_answers (s := s) depth he)
  have hmap := hargs.bind fun x _ => hcalls x
  rw [bind_assoc] at hmap
  exact eval_succ_answers hmap

end Eval

/-! ## Values -/

/-- in `s`, `(name e)` comes to `w`, if `e` may nest `few` deep and the body of the procedure `many`
deep -/
def Yields (s : Scope) (name : String) (few many : Nat) (e w : Expr) : Prop :=
  ∃ v p, (eval few e).outcome s = .ok v ∧ s.procedure name = .ok p ∧
    (Eval.call (eval many) name p [v]).outcome s = .ok w

variable {s : Scope} {name : String}

theorem Yields.mono {few few' many many' : Nat} (hfew : few ≤ few') (hmany : many ≤ many')
    {e w : Expr} (h : Yields s name few many e w) : Yields s name few' many' e w := by
  obtain ⟨v, p, hv, hp, hw⟩ := h
  refine ⟨v, p, outcome_eval_mono hfew hv, hp, ?_⟩
  rcases Eval.outcome_call_mono hp [v] hmany with hdeep | heq
  · rw [hw] at hdeep
    cases hdeep
  · exact heq.trans hw

theorem outcome_map {depth : Nat} {es : List Expr} (hne : es ≠ [])
    (he : ∀ e ∈ es, e.Avoids .define) {u : Expr} :
    (eval (depth + 2) (Expr.mapped name es)).outcome s = .ok u ↔
      ∃ ws, u = Expr.list ws ∧ List.Forall₂ (Yields s name depth (depth + 1)) es ws := by
  rw [(Eval.map_answers depth name he).outcome_eq]
  simp only [bind_eq_ok, mapM_eq_ok]
  constructor
  · rintro ⟨vs, hvs, p, hp, ws, hws, hu⟩
    refine ⟨ws, (Except.ok.inj hu).symm, ?_⟩
    exact (forall₂_comp.mp ⟨vs, hvs, hws⟩).imp fun e w ⟨v, hv, hw⟩ => ⟨v, p, hv, hp, hw⟩
  · rintro ⟨ws, rfl, h⟩
    -- the procedure is the same for all elements, and there is one
    obtain ⟨p, hp⟩ : ∃ p, s.procedure name = .ok p := by
      cases h with
      | nil => exact absurd rfl hne
      | cons hy _ =>
        obtain ⟨_, p, _, hp, _⟩ := hy
        exact ⟨p, hp⟩
    obtain ⟨vs, hvs, hws⟩ := forall₂_comp.mpr (h.imp fun e w ⟨v, p', hv, hp', hw⟩ => by
      rw [hp] at hp'
      cases hp'
      exact ⟨v, hv, hw⟩)
    exact ⟨vs, hvs, p, hp, ws, hws, rfl⟩

/-- a `map` needs a level for the list and one for its elements -/
theorem outcome_map_one (es : List Expr) :
    (eval 1 (Expr.mapped name es)).outcome s = .error .tooDeep := by
  have hlist := exec_eval_zero (Expr.list es) (r := Run.start s) rfl
  unfold Action.outcome
  rw [exec_eval_succ 0 _ rfl]
  show ((Eval.nameAndElements (eval 0) .map [Expr.symbol name, Expr.list es] >>= _).exec
    (Run.start s)).1 = _
  rw [Action.exec_bind, Eval.exec_nameAndElements_error .map name hlist]

section
variable (hf : Form.ofName? name = none)
include hf

theorem outcome_call_one {depth : Nat} {e w : Expr} (he : e.Avoids .define) :
    (eval (depth + 1) (Expr.call name [e])).outcome s = .ok w ↔ Yields s name depth depth e w := by
  rw [(Eval.call_one_answers depth hf he).outcome_eq]
  simp only [bind_eq_ok, Yields]
  constructor
  · rintro ⟨v, hv, p, hp, hw⟩
    exact ⟨v, p, hv, hp, hw⟩
  · rintro ⟨v, p, hv, hp, hw⟩
    exact ⟨v, hv, p, hp, hw⟩

/-- a call whose body has one level less comes to the same or ends at the limit -/
theorem outcome_call_one_or {depth : Nat} {e w : Expr} (he : e.Avoids .define)
    (h : Yields s name depth (depth + 1) e w) :
    (eval (depth + 1) (Expr.call name [e])).outcome s = .ok w ∨
      (eval (depth + 1) (Expr.call name [e])).outcome s = .error .tooDeep := by
  obtain ⟨v, p, hv, hp, hw⟩ := h
  have hcall : (eval (depth + 1) (Expr.call name [e])).outcome s =
      (Eval.call (eval depth) name p [v]).outcome s := by
    rw [(Eval.call_one_answers depth hf he).outcome_eq, hv, hp]
    rfl
  rw [hcall]
  rcases Eval.outcome_call_mono hp [v] (Nat.le_succ depth) with hdeep | heq
  · exact .inr hdeep
  · exact .inl (heq.symm.trans hw)

variable {es : List Expr} (he : ∀ e ∈ es, e.Avoids .define)
include he

theorem forall₂_call_one {depth : Nat} {ws : List Expr} :
    List.Forall₂ (fun e w => (eval (depth + 1) (Expr.call name [e])).outcome s = .ok w) es ws ↔
      List.Forall₂ (Yields s name depth depth) es ws := by
  constructor
  · intro h
    refine ((List.forall₂_and_left es ws).mpr ⟨he, h⟩).imp fun e w h => ?_
    exact (outcome_call_one hf h.1).mp h.2
  · intro h
    refine ((List.forall₂_and_left es ws).mpr ⟨he, h⟩).imp fun e w h => ?_
    exact (outcome_call_one hf h.1).mpr h.2

theorem outcome_each_eq (depth : Nat) :
    (eval (depth + 1) (Expr.each name es)).outcome s = (do
      let ws ← es.mapM fun e => (eval depth (Expr.call name [e])).outcome s
      return Expr.list ws) := by
  unfold Expr.each
  rw [(Eval.list_answers depth (Expr.calls_avoid hf he)).outcome_eq, List.mapM_map]
  rfl

theorem outcome_each {depth : Nat} {u : Expr} :
    (eval (depth + 2) (Expr.each name es)).outcome s = .ok u ↔
      ∃ ws, u = Expr.list ws ∧ List.Forall₂ (Yields s name depth depth) es ws := by
  rw [outcome_each_eq hf he]
  simp only [bind_eq_ok, mapM_eq_ok, forall₂_call_one hf he]
  constructor
  · rintro ⟨ws, hws, hu⟩
    exact ⟨ws, (Except.ok.inj hu).symm, hws⟩
  · rintro ⟨ws, rfl, hws⟩
    exact ⟨ws, hws, rfl⟩

variable (hne : es ≠ [])
include hne

theorem outcome_each_one : (eval 1 (Expr.each name es)).outcome s = .error .tooDeep := by
  rw [outcome_each_eq hf he]
  cases es with
  | nil => exact absurd rfl hne
  | cons e es =>
    rw [List.mapM_cons, outcome_eval_zero]
    rfl

/-! ## From one form to another -/

theorem outcome_each_of_map {depth : Nat} {u : Expr}
    (hu : (eval depth (Expr.mapped name es)).outcome s = .ok u) :
    (eval depth (Expr.each name es)).outcome s = .ok u ∨
      (eval depth (Expr.each name es)).outcome s = .error .tooDeep := by
  match depth with
  | 0 => exact .inr (outcome_eval_zero _)
  | 1 => exact .inr (outcome_each_one hf he hne)
  | depth + 2 =>
    obtain ⟨ws, rfl, hws⟩ := (outcome_map hne he).mp hu
    have hcalls := ((List.forall₂_and_left es ws).mpr ⟨he, hws⟩).imp fun e w h =>
      outcome_call_one_or hf h.1 h.2
    rw [outcome_each_eq hf he]
    rcases mapM_eq_ok_or_error hcalls with h | h
    · left
      rw [h]
      rfl
    · right
      rw [h]
      rfl

theorem outcome_map_of_each {depth : Nat} {u : Expr}
    (hu : (eval depth (Expr.each name es)).outcome s = .ok u) :
    (eval depth (Expr.mapped name es)).outcome s = .ok u := by
  match depth with
  | 0 =>
    rw [outcome_eval_zero] at hu
    cases hu
  | 1 =>
    rw [outcome_each_one hf he hne] at hu
    cases hu
  | depth + 2 =>
    obtain ⟨ws, rfl, hws⟩ := (outcome_each hf he).mp hu
    refine (outcome_map hne he).mpr ⟨ws, rfl, ?_⟩
    exact hws.imp fun e w h => h.mono (Nat.le_refl depth) (Nat.le_succ depth)

/-- the elements of the result are the values of the applications, each by itself -/
theorem outcome_calls_of_map {depth : Nat} {u : Expr}
    (hu : (eval depth (Expr.mapped name es)).outcome s = .ok u) :
    ∃ ws, u = Expr.list ws ∧
      List.Forall₂ (fun e w => (eval depth (Expr.call name [e])).outcome s = .ok w) es ws := by
  match depth with
  | 0 =>
    rw [outcome_eval_zero] at hu
    cases hu
  | 1 =>
    rw [outcome_map_one] at hu
    cases hu
  | depth + 2 =>
    obtain ⟨ws, rfl, hws⟩ := (outcome_map hne he).mp hu
    refine ⟨ws, rfl, (forall₂_call_one hf he).mpr ?_⟩
    exact hws.imp fun e w h => h.mono (Nat.le_succ depth) (Nat.le_refl (depth + 1))

end

/-- The value of `(map f (list e₁ … eₙ))` is that of `(list (f e₁) … (f eₙ))`, unless the second
ends at the depth limit, and the value of the second is that of the first.  Neither changes the
scope.  The elements are the values of `(f e₁)`, …, `(f eₙ)` in this order, and if one of these
fails the whole `map` does. -/
theorem eval_map_eq_calls (depth : Nat) {name : String} (hf : Form.ofName? name = none)
    {es : List Expr} (hne : es ≠ []) (he : ∀ e ∈ es, e.Avoids .define) (r : Run) :
    let mapped := (eval depth (Expr.call "map" [Expr.symbol name, Expr.list es])).exec r
    let each := (eval depth (Expr.list (es.map fun e => Expr.call name [e]))).exec r
    let one := fun e => ((eval depth (Expr.call name [e])).exec r).1
    (∀ v, mapped.1 = .ok v → each.1 = .ok v ∨ each.1 = .error .tooDeep) ∧
    (∀ v, each.1 = .ok v → mapped.1 = .ok v) ∧
    mapped.2.scope = r.scope ∧ each.2.scope = r.scope ∧
    (∀ v, mapped.1 = .ok v →
      ∃ ws, v = Expr.list ws ∧ List.Forall₂ (fun e w => one e = .ok w) es ws) ∧
    (∀ e ∈ es, ∀ err, one e = .error err → ∃ err', mapped.1 = .error err') := by
  intro mapped each one
  have hcalls : ∀ v, mapped.1 = .ok v →
      ∃ ws, v = Expr.list ws ∧ List.Forall₂ (fun e w => one e = .ok w) es ws := by
    intro v hv
    have hr : r.raised = false := calm_of_exec_ok hv
    have hone : ∀ e, one e = (eval depth (Expr.call name [e])).outcome r.scope :=
      fun e => exec_eval_outcome depth (Expr.call name [e]) hr
    simp only [hone]
    exact outcome_calls_of_map hf he hne ((exec_eval_outcome depth _ hr).symm.trans hv)
  refine ⟨?_, ?_, ?_, ?_, hcalls, ?_⟩
  · intro v hv
    have hr : r.raised = false := calm_of_exec_ok hv
    have heach : each.1 = (eval depth (Expr.each name es)).outcome r.scope :=
      exec_eval_outcome depth _ hr
    rw [heach]
    exact outcome_each_of_map hf he hne ((exec_eval_outcome depth _ hr).symm.trans hv)
  · intro v hv
    have hr : r.raised = false := calm_of_exec_ok hv
    have hmapped : mapped.1 = (eval depth (Expr.mapped name es)).outcome r.scope :=
      exec_eval_outcome depth _ hr
    rw [hmapped]
    exact outcome_map_of_each hf he hne ((exec_eval_outcome depth _ hr).symm.trans hv)
  · exact (eval_grows depth _ r).eq_of_empty (Expr.mapped_avoids hf he nofun).not_defines
  · exact (eval_grows depth _ r).eq_of_empty (Expr.each_avoids hf he).not_defines
  · intro e hmem err herr
    cases hm : mapped.1 with
    | error err' => exact ⟨err', rfl⟩
    | ok v =>
      obtain ⟨ws, _, hws⟩ := hcalls v hm
      have hall : ∀ e ∈ es, ∃ w, one e = .ok w :=
        ((List.forall₂_and_left es ws).mp (hws.imp fun e w h => ⟨⟨w, h⟩, h⟩)).1
      obtain ⟨w, hw⟩ := hall e hmem
      rw [herr] at hw
      cases hw

/-- a scope in which `f` is `(lambda (x) (begin (define y x) (list y x)))` -/
def pairingScope : Scope :=
  ⟨[], Bindings.insert "f" (Eval.closure ["x"] (Expr.call "begin"
    [Expr.call "define" [Expr.symbol "y", Expr.symbol "x"],
      Expr.list [Expr.symbol "y", Expr.symbol "x"]]) []) Scope.baseline⟩

theorem eval_map_pairs :
    let es := [Expr.list [], Expr.string "a"]
    let mapped := (eval depthLimit (Expr.call "map" [Expr.symbol "f", Expr.list es])).exec
      (Run.start pairingScope)
    let each := (eval depthLimit (Expr.list (es.map fun e => Expr.call "f" [e]))).exec
      (Run.start pairingScope)
    (∀ e ∈ es, e.Avoids .define) ∧
    mapped.1 = .ok (Expr.list [Expr.list [Expr.list [], Expr.list []],
      Expr.list [Expr.string "a", Expr.string "a"]]) ∧
    each.1 = mapped.1 ∧
    mapped.2.scope = pairingScope ∧ each.2.scope = pairingScope := by
  intro es mapped each
  have hf : Form.ofName? "f" = none := rfl
  have hne : es ≠ [] := List.cons_ne_nil _ _
  have he : ∀ e ∈ es, e.Avoids .define := by
    have hlist : (Expr.list []).Avoids .define := Expr.list_avoids (List.forall_mem_nil _)
    have hstring : (Expr.string "a").Avoids .define := .intro nofun (List.forall_mem_nil _)
    exact List.forall_mem_cons.mpr ⟨hlist, List.forall_mem_singleton.mpr hstring⟩
  have hmapped : mapped.1 = .ok (Expr.list [Expr.list [Expr.list [], Expr.list []],
      Expr.list [Expr.string "a", Expr.string "a"]]) := rfl
  have hok : each.1.isOk = true := rfl
  obtain ⟨heach, _, hscope, hscope', _, _⟩ :=
    eval_map_eq_calls depthLimit hf hne he (Run.start pairingScope)
  have hnotDeep : each.1 ≠ .error .tooDeep := by
    intro hdeep
    rw [hdeep] at hok
    cases hok
  exact ⟨he, hmapped, ((heach _ hmapped).resolve_right hnotDeep).trans hmapped.symm, hscope, hscope'⟩

end ChartLisp
