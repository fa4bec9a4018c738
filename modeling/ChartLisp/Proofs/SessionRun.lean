import ChartLisp.Proofs.Growth
import ChartLisp.Session

/-!
# Runs of a session

* `Session.Op`           what can be done with a session
* `Session.perform`      the session after one operation, `Session.run` after several
* `Session.perform_root_cases`   the three things an operation can do to the definitions
* `Session.run_induction`        what every operation keeps holds after every run
-/

namespace ChartLisp.Session

inductive Op where
  | parse (source : String)
  | parseBytes (bytes : ByteArray)
  | evaluate
  | reset
  | attach
  | handle
  | raise (h : Signals.Handle)
  | take (h : Signals.Handle)

def perform (s : Session) : Op → Session
  | .parse source => (s.parse source).2
  | .parseBytes bytes => (s.parseBytes bytes).2
  | .evaluate => s.evaluate.2
  | .reset => s.reset
  | .attach => s.attach.2
  | .handle => s.handle.2
  | .raise h => s.raise h
  | .take h => (s.take h).2

def run (s : Session) (ops : List Op) : Session := ops.foldl perform s

theorem run_induction {I : Session → Prop} {ops : List Op} {s : Session} (h : I s)
    (step : ∀ s, ∀ op ∈ ops, I s → I (s.perform op)) : I (s.run ops) := by
  induction ops generalizing s with
  | nil => exact h
  | cons op ops ih =>
    refine ih (step s op List.mem_cons_self h) fun s' op' hop => ?_
    exact step s' op' (List.mem_cons_of_mem _ hop)

/-- the state that an evaluation starts from -/
def start (s : Session) : Run := ⟨s.scope, s.pending, s.log⟩

theorem evaluate_of_program {s : Session} {e : Expr} (h : s.program = some e) :
    s.evaluate.1 = ((ChartLisp.evaluate e).exec s.start).1 ∧
      s.evaluate.2.root = ((ChartLisp.evaluate e).exec s.start).2.scope.root := by
  unfold evaluate start
  rw [h]
  dsimp only
  generalize (ChartLisp.evaluate e).exec ⟨s.scope, s.pending, s.log⟩ = x
  obtain ⟨result, r⟩ := x
  cases result <;> exact ⟨rfl, rfl⟩

theorem parse_root (s : Session) (source : String) : (s.parse source).2.root = s.root := by
  unfold parse
  split <;> rfl

theorem parseBytes_root (s : Session) (bytes : ByteArray) :
    (s.parseBytes bytes).2.root = s.root := by
  unfold parseBytes
  cases String.fromUTF8? bytes with
  | none => rfl
  | some source =>
    dsimp only
    rw [← s.parse_root source]
    generalize s.parse source = x
    obtain ⟨result, s'⟩ := x
    cases result <;> rfl

/-- An operation keeps the definitions, makes them what an evaluation of the program leaves, or
drops them. -/
theorem perform_root_cases (s : Session) (op : Op) :
    (s.perform op).root = s.root ∨
      (∃ e, (s.perform op).root = ((ChartLisp.evaluate e).exec s.start).2.scope.root) ∨
      (op = .reset ∧ (s.perform op).root = Scope.baseline) := by
  cases op with
  | parse source => exact .inl (s.parse_root source)
  | parseBytes bytes => exact .inl (s.parseBytes_root bytes)
  | evaluate =>
    cases hp : s.program with
    | none =>
      left
      show s.evaluate.2.root = s.root
      unfold evaluate
      rw [hp]
    | some e => exact .inr (.inl ⟨e, (evaluate_of_program hp).2⟩)
  | reset => exact .inr (.inr ⟨rfl, rfl⟩)
  | attach => exact .inl rfl
  | handle =>
    left
    show s.handle.2.root = s.root
    unfold handle
    split <;> rfl
  | raise h => exact .inl rfl
  | take h => exact .inl rfl

/-- what an evaluation leaves of the scope of a session is its root -/
theorem evaluate_scope (s : Session) (e : Expr) :
    ((ChartLisp.evaluate e).exec s.start).2.scope =
      ⟨[], ((ChartLisp.evaluate e).exec s.start).2.scope.root⟩ := by
  have hg := eval_grows depthLimit e s.start
  have hl := hg.locals_eq_nil rfl
  exact congrArg (Scope.mk · _) hl

end ChartLisp.Session
