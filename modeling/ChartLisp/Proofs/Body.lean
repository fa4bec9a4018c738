import ChartLisp.Proofs.Application
import ChartLisp.Proofs.Body.Stage
import ChartLisp.Proofs.Definitions
import ChartLisp.Proofs.Notebook
import ChartLisp.Proofs.Outcome

/-!
# Programs as bodies of procedures

A program can be run by itself, or as the body of a procedure that is called once.  In the body a
closure copies the definitions made so far, and the later ones, its own included, are not there for
it.  This is all that can make a difference.

* `Body.begin_outcome`         the expressions of the program, one after the other
* `Expr.throughProcedure`      the program as the body of a procedure that is called
* `outcome_throughProcedure`   the body is evaluated with two levels less
* `throughProcedure_outcome`   it comes to the value of the program, or to the end of its room, or it
                               misses a name that it reads ahead
-/

namespace ChartLisp

open ChartLisp.Action (Linked)

namespace Body

variable {K : Setting}

/-! ## The expressions of a program -/

/-- the setting of the expressions as the body of a procedure `main` with the parameter `u` -/
def Setting.ofProgram (main u : String) (es : List Expr) (procedure : Expr) : Setting where
  hidden n := n = main ∨ n = u
  defined n := ∃ c ∈ es, c.Defines n
  ahead n := Expr.ReadsAhead es n
  outer := Bindings.insert main procedure Scope.baseline
  outer_eq {n} hn := by
    rw [Bindings.get?_insert, if_neg fun h => hn (.inl h)]

/-- the stage at which the given expressions have been evaluated: what none of them defines may be
without a value -/
def Stage.behind (w : Stage K) (before : List Expr) : Stage K :=
  { w with gap := fun n => ∀ c ∈ before, ¬ c.Defines n }

section
variable {main u : String} {es : List Expr} {procedure : Expr}
  {w : Stage (Setting.ofProgram main u es procedure)} {before rest : List Expr} {e : Expr}

/-- an expression of the program, when those before it have been evaluated -/
theorem reads_expression (hquiet : ∀ c ∈ es, ∀ n, c.Mentions n → n ≠ main ∧ n ≠ u)
    (hes : es = before ++ e :: rest) (htop : w.top = true) : Reads (w.behind before) e e := by
  have hmem : e ∈ es := by simp [hes]
  refine ⟨rfl, fun n hm => ?_, fun n _ hd => ⟨e, hmem, hd⟩, fun l n _ hb hf hg hd => ?_,
    fun n hfalse => ?_⟩
  · exact not_or.mpr (hquiet e hmem n hm)
  · obtain ⟨c, hc, hdefines⟩ := hd
    refine ⟨before, e, rest, hes, hg, ⟨l, hb, hf⟩, c, ?_, hdefines⟩
    rw [hes] at hc
    exact (List.mem_append.mp hc).resolve_left fun hc => hg c hc hdefines
  · cases htop.symm.trans hfalse

/-- The scopes behind an expression that has been evaluated.  What it defines has left the gap. -/
theorem Scopes.advance {w₁ : Stage K} {w : Stage K} {s s' : Scope} (h : Scopes w₁ s s')
    (hw : w.behind before ≤ w₁) (htop : w.top = true)
    (hbound : ∀ n, e.Defines n → (s'.lookup n).isSome = true) :
    Scopes (w₁.behind (before ++ [e])) s s' := by
  refine h.regap _ fun n hn hdefined => ?_
  by_cases hd : e.Defines n
  · exact h.isSome_of_right ((Stage.reaches hw).top.symm.trans htop) hn (hbound n hd)
  · refine h.known n hn fun hg => hdefined fun c hc => ?_
    rw [← (Stage.reaches hw).gap] at hg
    rcases List.mem_append.mp hc with hc | hc
    · exact hg c hc
    · rw [List.mem_singleton.mp hc]
      exact hd

/-- The rest of the program, on both sides, when the expressions before it have been evaluated. -/
theorem begin_outcome (hquiet : ∀ c ∈ es, ∀ n, c.Mentions n → n ≠ main ∧ n ≠ u) (depth : Nat)
    (hes : es = before ++ e :: rest) (htop : w.top = true) {r r' : Run}
    (hl : Linked (Scopes (w.behind before)) r r') :
    (comparison (Setting.ofProgram main u es procedure)).Outcome
      (fun v v' => ∃ root, Twin (Setting.ofProgram main u es procedure) root v v')
      ((Eval.begin (eval depth) (e :: rest)).exec r).1
      ((Eval.begin (eval depth) (e :: rest)).exec r').1 := by
  induction rest generalizing before e w r r' with
  | nil =>
    have hagree := (staging _).eval_sim depth _ e e (reads_expression hquiet hes htop) _ r r'
      le_rfl hl
    exact hagree.outcome.imp fun v v' ⟨w', h⟩ => ⟨w'.root, h⟩
  | cons e₁ rest ih =>
    have hagree := (staging _).eval_sim depth _ e e (reads_expression hquiet hes htop) _ r r'
      le_rfl hl
    -- what the expression defines is bound on the side of the program, and so in the body
    have hbinds (n : String) (hd : e.Defines n) := eval_binds depth hd r'
    have hbegin : Eval.begin (eval depth) (e :: e₁ :: rest) =
        (eval depth e >>= fun _ => Eval.begin (eval depth) (e₁ :: rest)) := rfl
    rw [hbegin, Action.exec_bind, Action.exec_bind]
    generalize (eval depth e).exec r = x at hagree ⊢
    generalize (eval depth e).exec r' = y at hagree hbinds ⊢
    cases hagree with
    | first hs => exact .first hs
    | @second err _ x _ =>
      show (comparison _).Outcome _ _ (.error err)
      exact .second trivial
    | error _ _ => exact .error _
    | @ok w₁ v v' r₁ r₁' hw _ hl₁ =>
      have hscopes := Scopes.advance hl₁.scope hw htop fun n hd => hbinds n hd v' r₁' rfl
      have hrest : es = (before ++ [e]) ++ e₁ :: rest := by simp [hes]
      exact ih hrest ((Stage.reaches hw).top.symm.trans htop) ⟨hscopes, hl₁.raised⟩

end

end Body

/-! ## The program as a body -/

/-- `(begin (define main (lambda (u) body)) (main 0))` -/
def Expr.throughProcedure (main u : String) (body : Expr) : Expr :=
  sequence
    (node (.symbol Form.define.name)
      [symbol main, node (.symbol Form.lambda.name) [symbol u, body]])
    [call main [number 0]]

/-- the scope in which the body of the procedure is evaluated -/
def Scope.throughProcedure (main u : String) (body : Expr) : Scope :=
  ⟨[[(u, Expr.number 0)], []], Bindings.insert main (Eval.closure [u] body []) Scope.baseline⟩

section
variable {main u : String} (hmain : Bindable main) (hu : Bindable u)
include hu

theorem exec_eval_procedure (depth : Nat) (body : Expr) {r : Run} (hr : r.raised = false) :
    (eval (depth + 1) (Expr.node (.symbol Form.lambda.name) [Expr.symbol u, body])).exec r =
      (.ok (Eval.closure [u] body r.scope.flattened), r) := by
  have hnames : Eval.parameterNames [] (Eval.declared (Expr.symbol u)) = .ok [u] := by
    show (requireUnreserved u >>= fun _ => _) = _
    rw [requireUnreserved_eq_ok.mpr hu]
    rfl
  rw [exec_eval_succ depth _ hr]
  show (Eval.lambda [Expr.symbol u, body]).exec r = _
  rw [Eval.lambda_exec, hnames]
  rfl

include hmain

/-- the definition puts the procedure into the root -/
theorem exec_eval_definition (hfresh : Scope.fresh.lookup main = none) (depth : Nat) (body : Expr) :
    (eval (depth + 2) (Expr.node (.symbol Form.define.name)
        [Expr.symbol main, Expr.node (.symbol Form.lambda.name) [Expr.symbol u, body]])).exec
          (Run.start Scope.fresh) =
      (.ok (Eval.closure [u] body []),
        ⟨⟨[], Bindings.insert main (Eval.closure [u] body []) Scope.baseline⟩, false,
          [.defining main (Eval.closure [u] body [])]⟩) := by
  have hcheck : (Action.ofExcept (Scope.fresh.requireUnbound main)).exec (Run.start Scope.fresh) =
      (.ok (), Run.start Scope.fresh) := by
    rw [Action.exec_ofExcept, Scope.requireUnbound_eq_ok.mpr ⟨hmain, hfresh⟩]
  have hdefine : Scope.fresh.define main (Eval.closure [u] body []) =
      .ok (Scope.fresh.modify (Bindings.insert main (Eval.closure [u] body []))) :=
    Scope.define_eq_ok.mpr ⟨hmain, hfresh, rfl⟩
  rw [exec_eval_succ (depth + 1) _ rfl]
  show (Action.ofExcept (Scope.fresh.requireUnbound main) >>= fun _ => _).exec _ = _
  rw [Action.exec_bind_ok hcheck, Action.exec_bind_ok (exec_eval_procedure hu depth body rfl),
    Action.exec_bind_ok (Action.exec_record _ _)]
  show (Action.defining main (Eval.closure [u] body [])).exec ⟨Scope.fresh, false, _⟩ = _
  rw [Action.exec_defining, hdefine]
  rfl

/-- the call evaluates the body, with the parameter above the root -/
theorem outcome_call_procedure (depth : Nat) (body : Expr) {root : Bindings Expr}
    (hroot : Bindings.get? root main = some (Eval.closure [u] body [])) (log : List Event) :
    ((eval (depth + 2) (Expr.call main [Expr.number 0])).exec ⟨⟨[], root⟩, false, log⟩).1 =
      (eval (depth + 1) body).outcome ⟨[[(u, Expr.number 0)], []], root⟩ := by
  have hargs : ([Expr.number 0].mapM (eval (depth + 1))).exec ⟨⟨[], root⟩, false, log⟩ =
      (.ok [Expr.number 0], ⟨⟨[], root⟩, false, log⟩) := rfl
  have hprocedure : (Eval.procedureNamed main).exec ⟨⟨[], root⟩, false, log⟩ =
      (.ok (.closure (Eval.closure [u] body [])), ⟨⟨[], root⟩, false, log⟩) := by
    have hlookup : Scope.lookup ⟨[], root⟩ main = some (Eval.closure [u] body []) := hroot
    have hfound : Scope.procedure ⟨[], root⟩ main = .ok (.closure (Eval.closure [u] body [])) := by
      unfold Scope.procedure
      rw [hmain.2, hlookup]
      rfl
    show (Action.ofExcept (Scope.procedure ⟨[], root⟩ main)).exec _ = _
    rw [Action.exec_ofExcept, hfound]
  have hbindable : ∀ n ∈ [u], Bindable n := List.forall_mem_singleton.mpr hu
  rw [exec_eval_succ (depth + 1) _ rfl, Eval.node_call hmain.1 (List.cons_ne_nil _ _),
    Action.exec_bind_ok hargs]
  unfold Eval.applied
  rw [Action.exec_bind_ok hprocedure]
  show ((Eval.callClosure (eval (depth + 1)) main (Eval.closure [u] body []) [Expr.number 0]).exec
    _).1 = _
  rw [Eval.callClosure_closure _ main rfl hbindable (by simp),
    Action.exec_bind_ok (Action.exec_record _ _), Action.exec_get_bind, Action.exec_inScope,
    Eval.eval_mark]
  exact exec_eval_outcome (depth + 1) body rfl

theorem outcome_throughProcedure (hfresh : Scope.fresh.lookup main = none) (body : Expr) :
    (evaluate (Expr.throughProcedure main u body)).outcome Scope.fresh =
      (eval (depthLimit - 2) body).outcome (Scope.throughProcedure main u body) := by
  have hroot : Bindings.get? (Bindings.insert main (Eval.closure [u] body []) Scope.baseline) main =
      some (Eval.closure [u] body []) := by
    rw [Bindings.get?_insert, if_pos rfl]
  unfold Action.outcome Expr.throughProcedure
  rw [Session.exec_evaluate_sequence]
  show ((eval (depthLimit - 3 + 2) _ >>= fun _ =>
    eval (depthLimit - 3 + 2) (Expr.call main [Expr.number 0])).exec _).1 = _
  rw [Action.exec_bind_ok (exec_eval_definition hmain hu hfresh (depthLimit - 3) body)]
  exact outcome_call_procedure hmain hu (depthLimit - 3) body hroot _

omit hu in
/-- the name of a constant cannot be defined -/
theorem outcome_throughProcedure_of_isSome (hbound : (Scope.fresh.lookup main).isSome = true)
    (body : Expr) :
    (evaluate (Expr.throughProcedure main u body)).outcome Scope.fresh =
      .error (.alreadyBound main) := by
  have hcheck : Scope.fresh.requireUnbound main = .error (.alreadyBound main) := by
    unfold Scope.requireUnbound
    rw [requireUnreserved_eq_ok.mpr hmain, hbound]
    rfl
  have hdefinition : (eval (depthLimit - 2 + 1) (Expr.node (.symbol Form.define.name)
      [Expr.symbol main, Expr.node (.symbol Form.lambda.name) [Expr.symbol u, body]])).exec
        (Run.start Scope.fresh) = (.error (.alreadyBound main), Run.start Scope.fresh) := by
    rw [exec_eval_succ (depthLimit - 2) _ rfl]
    show (Action.ofExcept (Scope.fresh.requireUnbound main) >>= fun _ => _).exec _ = _
    rw [Action.exec_bind, Action.exec_ofExcept, hcheck]
  unfold Action.outcome Expr.throughProcedure
  rw [Session.exec_evaluate_sequence]
  show ((eval (depthLimit - 2 + 1) _ >>= fun _ => _).exec _).1 = _
  rw [Action.exec_bind, hdefinition]

end

/-- the scopes in which the body and the program begin -/
theorem Body.scopes_start (main u : String) (es : List Expr) (body : Expr) :
    ∃ w : Stage (Setting.ofProgram main u es (Eval.closure [u] body [])), w.top = true ∧
      Scopes (w.behind []) (Scope.throughProcedure main u body) Scope.fresh := by
  let K := Setting.ofProgram main u es (Eval.closure [u] body [])
  -- above its root the body has its parameter alone, which is hidden
  have habove (n : String) (hn : ¬ K.hidden n) :
      Bindings.get? (Scope.throughProcedure main u body).flattened n = none := by
    show Bindings.get? (Scope.flattened ⟨[[(u, Expr.number 0)], []], _⟩) n = none
    rw [Scope.get?_flattened_call, Bindings.get?_cons, if_neg fun h => hn (.inr h)]
    rfl
  -- at the start nothing is known of the body, and the root of the program has the constants
  refine ⟨⟨true, fun _ => True, Scope.baseline, fun _ _ h => h, .inl⟩, rfl, ?_⟩
  refine ⟨rfl, nofun, rfl, ⟨fun _ => rfl, fun _ => rfl⟩, fun n hn => ?_, fun n _ hgap => ?_,
    fun n _ hn hx => ?_⟩
  · rw [habove n hn]
    exact .absent _
  · exact absurd (List.forall_mem_nil _) hgap
  · rw [Scope.lookup_eq, habove n hn]
    show (Bindings.get? K.outer n).isSome = true
    rw [K.outer_eq hn]
    exact hx

/-- with two levels less an evaluation comes to the same, or to its limit -/
theorem outcome_eval_two_less (e : Expr) (s : Scope) :
    (eval (depthLimit - 2) e).outcome s = .error .tooDeep ∨
      (eval (depthLimit - 2) e).outcome s = (evaluate e).outcome s := by
  have hle : depthLimit - 2 ≤ depthLimit := Nat.sub_le _ _
  have hagree := eval_depth_sim hle e e rfl (Run.start s) (Run.start s) ⟨rfl, rfl⟩
  by_cases hdeep : (eval (depthLimit - 2) e).outcome s = .error .tooDeep
  · exact .inl hdeep
  · exact .inr (hagree.eq_of_ne_tooDeep hdeep).1.symm

/-- the body with all its room comes to the value of the program, or misses a name -/
theorem Body.outcome_body {main u : String} {e : Expr} {es : List Expr}
    (hnomain : ¬ (Expr.sequence e es).Mentions main) (hnou : ¬ (Expr.sequence e es).Mentions u)
    {v : Expr} (hv : (evaluate (Expr.sequence e es)).outcome Scope.fresh = .ok v)
    (hdata : v.ClosureFree) {x : Except EvalError Expr}
    (hx : (evaluate (Expr.sequence e es)).outcome
      (Scope.throughProcedure main u (Expr.sequence e es)) = x) :
    x = .ok v ∨ ∃ n, (x = .error (.unbound n) ∨ x = .error (.notProcedure n)) ∧
      Expr.ReadsAhead (e :: es) n := by
  have hquiet : ∀ c ∈ e :: es, ∀ n, c.Mentions n → n ≠ main ∧ n ≠ u := by
    intro c hc n hm
    have hmentions : (Expr.sequence e es).Mentions n := .child hc hm
    exact ⟨fun h => hnomain (h ▸ hmentions), fun h => hnou (h ▸ hmentions)⟩
  obtain ⟨w, htop, hscopes⟩ := scopes_start main u (e :: es) (Expr.sequence e es)
  have hlinked : Linked (Scopes (w.behind []))
      (Run.start (Scope.throughProcedure main u (Expr.sequence e es))) (Run.start Scope.fresh) :=
    ⟨hscopes, rfl⟩
  have hout := begin_outcome hquiet (depthLimit - 1) rfl htop hlinked
  rw [← Session.exec_evaluate_sequence, ← Session.exec_evaluate_sequence] at hout
  unfold Action.outcome at hx hv
  rw [hx, hv] at hout
  cases hout with
  | first hs =>
    obtain ⟨n, hn, hahead⟩ := hs
    refine .inr ⟨n, ?_, hahead⟩
    rcases hn with rfl | rfl
    · exact .inl rfl
    · exact .inr rfl
  | ok htwin =>
    obtain ⟨root, htwin⟩ := htwin
    exact .inl (congrArg Except.ok (htwin.eq_of_closureFree hdata))

/-- Run as the body of a procedure, a program that comes to a value without closures comes to the
same value, or to the depth limit, of which two levels are used up before it begins, or it fails for
want of a name that it reads ahead: one of its expressions builds a procedure that reads the name,
and defines it itself or leaves that to the expressions behind it.  The procedure cannot have the
name of a constant. -/
theorem throughProcedure_outcome {main u : String} (hmain : Bindable main) (hu : Bindable u)
    {e : Expr} {es : List Expr} (hnomain : ¬ (Expr.sequence e es).Mentions main)
    (hnou : ¬ (Expr.sequence e es).Mentions u) {v : Expr}
    (hv : (evaluate (Expr.sequence e es)).outcome Scope.fresh = .ok v) (hdata : v.ClosureFree) :
    let x := (evaluate (Expr.throughProcedure main u (Expr.sequence e es))).outcome Scope.fresh
    x = .ok v ∨ x = .error .tooDeep ∨
      (∃ n, (x = .error (.unbound n) ∨ x = .error (.notProcedure n)) ∧
        Expr.ReadsAhead (e :: es) n) ∨
      (x = .error (.alreadyBound main) ∧ (Scope.fresh.lookup main).isSome = true) := by
  intro x
  cases hfresh : Scope.fresh.lookup main with
  | some c =>
    have hbound : (Scope.fresh.lookup main).isSome = true := Option.isSome_of_eq_some hfresh
    exact .inr (.inr (.inr ⟨outcome_throughProcedure_of_isSome hmain hbound _, rfl⟩))
  | none =>
    have hbody := outcome_throughProcedure hmain hu hfresh (Expr.sequence e es)
    rcases outcome_eval_two_less (Expr.sequence e es)
      (Scope.throughProcedure main u (Expr.sequence e es)) with hdeep | hroom
    · exact .inr (.inl (hbody.trans hdeep))
    · rcases Body.outcome_body hnomain hnou hv hdata (hbody.trans hroom).symm with hok | hmissed
      · exact .inl hok
      · exact .inr (.inr (.inl hmissed))

/-- `(begin (define k 10) (define g (lambda (x) (+ x k))) (g 1))` -/
def addsConstant : Expr :=
  Expr.sequence (Expr.call "define" [Expr.symbol "k", Expr.number 10])
    [Expr.call "define" [Expr.symbol "g", Expr.call "lambda" [Expr.symbol "x",
      Expr.call "+" [Expr.symbol "x", Expr.symbol "k"]]],
    Expr.call "g" [Expr.number 1]]

theorem throughProcedure_addsConstant :
    Bindable "main" ∧ Bindable "u" ∧ ¬ addsConstant.Mentions "main" ∧ ¬ addsConstant.Mentions "u" ∧
      (evaluate addsConstant).outcome Scope.fresh = .ok (Expr.number 11) ∧
      (Expr.number 11).ClosureFree ∧
      (evaluate (Expr.throughProcedure "main" "u" addsConstant)).outcome Scope.fresh =
        .ok (Expr.number 11) := by
  have hmain : Bindable "main" := ⟨rfl, rfl⟩
  have hu : Bindable "u" := ⟨rfl, rfl⟩
  have hnames : ∀ n ∈ ["main", "u"], ¬ addsConstant.Mentions n := by
    simp [addsConstant, Expr.sequence, Expr.call, Expr.symbol, Expr.number, Expr.leaf,
      Expr.mentions_node_iff, Form.name]
  have hnomain : ¬ addsConstant.Mentions "main" := hnames "main" (by simp)
  have hnou : ¬ addsConstant.Mentions "u" := hnames "u" (by simp)
  have hv : (evaluate addsConstant).outcome Scope.fresh = .ok (Expr.number 11) := rfl
  have hdata : (Expr.number 11).ClosureFree := .leaf rfl
  refine ⟨hmain, hu, hnomain, hnou, hv, hdata, ?_⟩
  have hvalue : ((evaluate (Expr.throughProcedure "main" "u" addsConstant)).outcome
      Scope.fresh).isOk = true := rfl
  -- of the four ways only the first is a value
  rcases throughProcedure_outcome hmain hu hnomain hnou hv hdata with
    hx | hx | ⟨n, hx | hx, -⟩ | ⟨hx, -⟩
  · exact hx
  all_goals
    rw [show addsConstant = Expr.sequence _ _ from rfl, hx] at hvalue
    cases hvalue

/-- `(begin (define f (lambda (x) (g x))) (define g (lambda (x) (+ x 1))) (f 1))` -/
def readsForward : Expr :=
  Expr.sequence (Expr.call "define" [Expr.symbol "f", Expr.call "lambda" [Expr.symbol "x",
      Expr.call "g" [Expr.symbol "x"]]])
    [Expr.call "define" [Expr.symbol "g", Expr.call "lambda" [Expr.symbol "x",
      Expr.call "+" [Expr.symbol "x", Expr.number 1]]],
    Expr.call "f" [Expr.number 1]]

/-- in the body `f` does not see `g`, which is defined behind it -/
theorem throughProcedure_readsForward :
    Bindable "main" ∧ Bindable "u" ∧ ¬ readsForward.Mentions "main" ∧ ¬ readsForward.Mentions "u" ∧
      (evaluate readsForward).outcome Scope.fresh = .ok (Expr.number 2) ∧
      (evaluate (Expr.throughProcedure "main" "u" readsForward)).outcome Scope.fresh =
        .error (.notProcedure "g") := by
  have hnames : ∀ n ∈ ["main", "u"], ¬ readsForward.Mentions n := by
    simp [readsForward, Expr.sequence, Expr.call, Expr.symbol, Expr.number, Expr.leaf,
      Expr.mentions_node_iff, Form.name]
  have hnomain : ¬ readsForward.Mentions "main" := hnames "main" (by simp)
  have hnou : ¬ readsForward.Mentions "u" := hnames "u" (by simp)
  exact ⟨⟨rfl, rfl⟩, ⟨rfl, rfl⟩, hnomain, hnou, rfl, rfl⟩

/-- no procedure is named like a constant, though the name is not reserved -/
theorem throughProcedure_pi :
    Bindable "pi" ∧
      (evaluate (Expr.sequence (Expr.number 1) [])).outcome Scope.fresh = .ok (Expr.number 1) ∧
      (evaluate (Expr.throughProcedure "pi" "u" (Expr.sequence (Expr.number 1) []))).outcome
        Scope.fresh = .error (.alreadyBound "pi") :=
  ⟨⟨rfl, rfl⟩, rfl, rfl⟩

end ChartLisp
