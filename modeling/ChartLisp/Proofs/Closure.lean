import ChartLisp.Eval
import ChartLisp.Proofs.Scope

/-!
# Closures and the scopes of their calls

* `parameterNames_eq_ok`       declared parameters are distinct names without a fixed meaning
* `bindArguments_eq_ok`        binding such names in an empty innermost scope always succeeds
* `eval_mark`                  the mark of a procedure's body does not change what it evaluates to
-/

namespace ChartLisp

namespace Eval

/-- the parameters that a list `(x y z)` names -/
def parameters (params : Expr) : List String := (declared params).filterMap Expr.symbol?

theorem parameterNames_eq_ok {seen : List String} {ps : List Expr} {names : List String}
    (h : parameterNames seen ps = .ok names) :
    ps.map Expr.symbol? = names.map some ∧ names.Nodup ∧
      ∀ name ∈ names, Bindable name ∧ name ∉ seen := by
  induction ps generalizing seen names with
  | nil =>
    cases h
    exact ⟨rfl, List.nodup_nil, fun _ hn => absurd hn List.not_mem_nil⟩
  | cons p ps ih =>
    rw [parameterNames] at h
    cases hp : p.symbol? with
    | none => rw [hp] at h; cases h
    | some name =>
      rw [hp] at h
      cases hr : requireUnreserved name with
      | error e => simp [hr, bind, Except.bind] at h
      | ok _ =>
        by_cases hs : name ∈ seen
        · simp [hr, hs, bind, Except.bind] at h
        · cases hrest : parameterNames (name :: seen) ps with
          | error e => simp [hr, hs, hrest, bind, Except.bind] at h
          | ok rest =>
            simp only [hr, hs, hrest, bind, Except.bind, if_false, pure, Except.pure,
              Except.ok.injEq] at h
            subst h
            obtain ⟨hmap, hnd, hall⟩ := ih hrest
            refine ⟨by rw [List.map_cons, List.map_cons, hp, hmap], ?_, ?_⟩
            · refine List.nodup_cons.mpr ⟨fun hn => ?_, hnd⟩
              exact (hall name hn).2 List.mem_cons_self
            · intro n hn
              rcases List.mem_cons.mp hn with rfl | hn
              · exact ⟨requireUnreserved_eq_ok.mp hr, hs⟩
              · exact ⟨(hall n hn).1, fun h => (hall n hn).2 (List.mem_cons_of_mem _ h)⟩

theorem parameters_eq_of_parameterNames {params : Expr} {names : List String}
    (h : parameterNames [] (declared params) = .ok names) : parameters params = names := by
  unfold parameters
  have hmap := (parameterNames_eq_ok h).1
  calc (declared params).filterMap Expr.symbol?
      = ((declared params).map Expr.symbol?).filterMap id := by
        rw [List.filterMap_map]; rfl
    _ = (names.map some).filterMap id := by rw [hmap]
    _ = names := by rw [List.filterMap_map]; exact List.filterMap_some

theorem lambda_exec (params body : Expr) (r : Run) :
    (lambda [params, body]).exec r =
      ((parameterNames [] (declared params)).map (closure · body r.scope.flattened), r) := by
  show (Action.ofExcept (parameterNames [] (declared params)) >>= _).exec r = _
  cases parameterNames [] (declared params) <;> rfl

theorem lambda_exec_eq_ok {params body c : Expr} {r : Run}
    (h : ((lambda [params, body]).exec r).1 = .ok c) :
    parameterNames [] (declared params) = .ok (parameters params) ∧
      c = closure (parameters params) body r.scope.flattened := by
  rw [lambda_exec] at h
  cases hn : parameterNames [] (declared params) with
  | error e => rw [hn] at h; cases h
  | ok names =>
    rw [hn] at h
    rw [parameters_eq_of_parameterNames hn]
    cases h
    exact ⟨rfl, rfl⟩

/-- evaluation reads the head and the children of an expression and none of its annotations -/
theorem eval_mark (depth : Nat) (e : Expr) (mark : Bool) :
    eval depth { e with isBody := mark } = eval depth e := by
  cases depth with
  | zero => rfl
  | succ depth => rfl

end Eval

/-! ## Binding arguments -/

theorem Scope.bindArgument_child {s : Scope} {m : Bindings Expr} {name : String} (v : Expr)
    (hn : Bindable name) (hm : m.get? name = none) :
    (s.child m).bindArgument name v = .ok (s.child (Bindings.insert name v m)) := by
  unfold Scope.bindArgument
  rw [requireUnreserved_eq_ok.mpr hn]
  show (if Bindings.contains m name then _ else _) = _
  unfold Bindings.contains
  rw [hm]
  rfl

/-- Distinct names without a fixed meaning can be bound, each to its argument. -/
theorem Closure.bindArguments_eq_ok {names : List String} {args : List Expr} {s : Scope}
    {m : Bindings Expr} (hlen : names.length = args.length) (hb : ∀ n ∈ names, Bindable n)
    (hnd : names.Nodup) (hm : ∀ n ∈ names, m.get? n = none) :
    bindArguments (names.map Expr.symbol) args (s.child m) =
      .ok (s.child ((names.zip args).foldl (fun b p => Bindings.insert p.1 p.2 b) m)) := by
  induction names generalizing args m with
  | nil =>
    cases args with
    | nil => rfl
    | cons a args => cases hlen
  | cons n names ih =>
    cases args with
    | nil => cases hlen
    | cons a args =>
      obtain ⟨hn, hnd'⟩ := List.nodup_cons.mp hnd
      have hbind := Scope.bindArgument_child (s := s) a (hb n List.mem_cons_self)
        (hm n List.mem_cons_self)
      show (Scope.bindArgument (s.child m) n a >>= bindArguments (names.map Expr.symbol) args) = _
      rw [hbind]
      refine ih (Nat.succ.inj hlen) (fun k hk => hb k (List.mem_cons_of_mem _ hk)) hnd'
        fun k hk => ?_
      have hne : k ≠ n := fun h => hn (h ▸ hk)
      rw [Bindings.get?_insert, if_neg hne]
      exact hm k (List.mem_cons_of_mem _ hk)

/-- a closure with good parameters is entered whenever the number of arguments is right -/
theorem Eval.callClosure_closure (ev : Expr → Action Expr) (name : String) {names : List String}
    {body : Expr} {captured : Bindings Expr} {args : List Expr} (hlen : names.length = args.length)
    (hb : ∀ n ∈ names, Bindable n) (hnd : names.Nodup) :
    callClosure ev name (closure names body captured) args = (do
      Action.record (.callingProcedure name args.length)
      let caller := (← get).scope
      Action.inScope ⟨[Bindings.ofList (names.zip args), captured], caller.root⟩
        (ev { body with isBody := true })) := by
  have hn : ¬ (names.map Expr.symbol).length ≠ args.length := by
    rw [List.length_map]
    exact fun h => h hlen
  show (if (names.map Expr.symbol).length ≠ args.length then _ else _) = _
  rw [if_neg hn]
  congr
  funext _
  congr
  funext r
  have hbind := Closure.bindArguments_eq_ok (s := ⟨[captured], r.scope.root⟩) (m := []) hlen hb hnd
    fun _ _ => rfl
  show (Action.ofExcept (Closure.bindArguments (names.map Expr.symbol) args
    (Scope.child ⟨[captured], r.scope.root⟩ [])) >>= _) = _
  rw [hbind]
  rfl

end ChartLisp
