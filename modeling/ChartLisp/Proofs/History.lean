import ChartLisp.Proofs.DepthLimit
import ChartLisp.Proofs.SessionRun
import Mathlib.Data.List.Induction

/-!
# What the operations before it decide about a session

The program of a session, the flag that is attached and which flags are up follow from the operations
that were performed, without a look at the session.

* `latestProgram ops`        the program of the last parse among `ops`
* `flagsAfter ops`           how many flags there are after `ops`
* `attachedAfter ops`        the latest of them, which is the attached one
* `Lowers h ops op`          `op`, performed after `ops`, lowers the flag `h`
* `UpAfter h ops`            `h` was raised and not lowered since
* `upAfter_of_leaves`        a raise of the attached flag is not lost
* `evaluate_none`, `evaluate_pending`, `evaluate_undisturbed`   the three ways of an evaluation
* `perform_program`, `perform_attached`, `perform_isRaised`   what each operation does to them
* `run_program`, `run_attached`, `run_isRaised`   and what every run does
-/

namespace ChartLisp

namespace Signals

theorem isRaised_set (s : Signals) (k h : Handle) (b : Bool) :
    isRaised (s.set k b) h = if k = h ∧ h < s.length then b else s.isRaised h := by
  unfold isRaised
  rw [List.getD_eq_getElem?_getD, List.getD_eq_getElem?_getD, List.getElem?_set]
  by_cases hk : k = h
  · subst hk
    by_cases hlt : k < s.length
    · simp [hlt]
    · simp [hlt]
  · simp [hk]

/-- lowering one flag leaves the others -/
theorem isRaised_lower_iff (s : Signals) (k h : Handle) :
    (s.lower k).isRaised h = true ↔ s.isRaised h = true ∧ k ≠ h := by
  rw [show s.lower k = s.set k false from rfl, isRaised_set]
  by_cases hk : k = h
  · subst hk
    by_cases hlt : k < s.length
    · simp [hlt]
    · simp [hlt, isRaised]
  · simp [hk]

theorem isRaised_lower (s : Signals) (h : Handle) : (s.lower h).isRaised h = false :=
  Bool.eq_false_iff.mpr fun hraised => ((isRaised_lower_iff s h h).mp hraised).2 rfl

theorem lower_eq_self {s : Signals} {h : Handle} (hlow : s.isRaised h = false) : s.lower h = s := by
  unfold isRaised at hlow
  rw [List.getD_eq_getElem?_getD] at hlow
  refine List.ext_getElem? fun i => ?_
  unfold lower
  rw [List.getElem?_set]
  by_cases hi : h = i
  · subst hi
    cases hget : s[h]? with
    | none => simp [List.getElem?_eq_none_iff.mp hget]
    | some b =>
      rw [hget] at hlow
      obtain rfl : b = false := hlow
      simp [(List.getElem?_eq_some_iff.mp hget).1]
  · simp [hi]

theorem isRaised_append (s : Signals) (h : Handle) : isRaised (s ++ [false]) h = s.isRaised h := by
  unfold isRaised
  rw [List.getD_eq_getElem?_getD, List.getD_eq_getElem?_getD]
  obtain hlt | heq | hgt := Nat.lt_trichotomy h s.length
  · rw [List.getElem?_append_left hlt]
  · subst heq
    simp
  · rw [List.getElem?_eq_none (by simp; omega), List.getElem?_eq_none (Nat.le_of_lt hgt)]

end Signals

namespace Session

/-- the program that a parse leaves, if it leaves one; other operations are no parses -/
def Op.parsed? : Op → Option (Option Expr)
  | .parse source => some (Program.read source).toOption
  | .parseBytes bytes =>
    some ((String.fromUTF8? bytes).bind fun source => (Program.read source).toOption)
  | _ => none

/-- `none` if nothing was parsed or if the last parse failed -/
def latestProgram (ops : List Op) : Option Expr := (ops.reverse.findSome? Op.parsed?).join

/-! ## The program -/

theorem parse_program (s : Session) (source : String) :
    (s.parse source).2.program = (Program.read source).toOption := by
  unfold parse parseLogged
  cases Program.read source <;> rfl

theorem parseBytes_program (s : Session) (bytes : ByteArray) :
    (s.parseBytes bytes).2.program =
      (String.fromUTF8? bytes).bind fun source => (Program.read source).toOption := by
  unfold parseBytes
  cases String.fromUTF8? bytes with
  | none => rfl
  | some source =>
    dsimp only [Option.bind_some]
    rw [← s.parse_program source]
    generalize s.parse source = x
    obtain ⟨result, s'⟩ := x
    cases result <;> rfl

theorem evaluate_program (s : Session) : s.evaluate.2.program = s.program := by
  cases hp : s.program with
  | none =>
    unfold evaluate
    rw [hp]
    exact hp
  | some e =>
    unfold evaluate
    rw [hp]
    dsimp only
    generalize (ChartLisp.evaluate e).exec ⟨s.scope, s.pending, s.log⟩ = x
    obtain ⟨result, r⟩ := x
    cases result <;> exact hp

/-- a parse decides about the program anew, and nothing else touches it -/
theorem perform_program (s : Session) (op : Op) :
    (s.perform op).program = op.parsed?.getD s.program := by
  cases op with
  | parse source => exact s.parse_program source
  | parseBytes bytes => exact s.parseBytes_program bytes
  | evaluate => exact s.evaluate_program
  | reset => rfl
  | attach => rfl
  | handle =>
    show s.handle.2.program = s.program
    unfold handle
    split <;> rfl
  | raise h => rfl
  | take h => rfl

theorem run_append (s : Session) (ops ops' : List Op) :
    s.run (ops ++ ops') = (s.run ops).run ops' := List.foldl_append

theorem run_program (ops : List Op) : (fresh.run ops).program = latestProgram ops := by
  induction ops using List.reverseRecOn with
  | nil => rfl
  | append_singleton ops op ih =>
    rw [run_append]
    show ((fresh.run ops).perform op).program = _
    rw [perform_program, ih]
    unfold latestProgram
    rw [List.reverse_append, List.reverse_singleton, List.singleton_append, List.findSome?_cons]
    cases op.parsed? <;> rfl

/-! ## One evaluation -/

theorem evaluate_none {s : Session} (h : s.program = none) :
    s.evaluate = (.error .noProgram, s) := by
  unfold evaluate
  rw [h]

theorem exec_evaluate_raised (e : Expr) {r : Run} (h : r.raised = true) :
    (ChartLisp.evaluate e).exec r =
      (.error .interrupted, { r with raised := false, log := .interruptSeen :: r.log }) :=
  exec_eval_raised depthLimit e h

theorem pending_eq_true {s : Session} :
    s.pending = true ↔ ∃ h, s.attached = some h ∧ s.isRaised h = true := by
  unfold pending
  cases s.attached with
  | none => simp
  | some h => simp [isRaised]

/-- the attached flag stops the evaluation before anything is done, and is lowered -/
theorem evaluate_pending {s : Session} {e : Expr} (hp : s.program = some e) (hr : s.pending = true) :
    ∃ h log, s.attached = some h ∧ s.isRaised h = true ∧
      s.evaluate = (.error .interrupted, { s with signals := s.signals.lower h, log := log }) := by
  obtain ⟨h, ha, hh⟩ := pending_eq_true.mp hr
  refine ⟨h, .evaluationFailed .interrupted :: .interruptSeen :: s.log, ha, hh, ?_⟩
  unfold evaluate settle
  rw [hp, hr]
  dsimp only
  rw [exec_evaluate_raised e rfl, ha]
  rfl

/-- what an evaluation leaves when it is not stopped: the scope of its course and a log -/
theorem evaluate_calm {s : Session} {e : Expr} (hp : s.program = some e) (hr : s.pending = false) :
    ∃ log, s.evaluate =
      (((ChartLisp.evaluate e).exec ⟨s.scope, false, s.log⟩).1,
        { s with
          root := ((ChartLisp.evaluate e).exec ⟨s.scope, false, s.log⟩).2.scope.root
          log := log }) := by
  have hcourse := (eval_course depthLimit e ⟨s.scope, false, s.log⟩).raised rfl
  -- writing the flag back changes nothing: it was lowered and it is lowered
  have hset : ∀ h, s.attached = some h → s.signals.set h false = s.signals := by
    intro h ha
    unfold pending at hr
    rw [ha] at hr
    exact Signals.lower_eq_self hr
  unfold evaluate settle
  rw [hp, hr]
  unfold ChartLisp.evaluate
  dsimp only
  generalize (eval depthLimit e).exec ⟨s.scope, false, s.log⟩ = x at hcourse ⊢
  obtain ⟨result, r⟩ := x
  have hraised : r.raised = false := hcourse.1
  cases hat : s.attached with
  | none => cases result <;> exact ⟨_, rfl⟩
  | some h =>
    have hs : s.signals.set h r.raised = s.signals := by rw [hraised, hset h hat]
    dsimp only
    rw [hs]
    cases result <;> exact ⟨_, rfl⟩

/-- the outcome is one of the program -/
theorem exec_evaluate_start (e : Expr) (scope : Scope) :
    ((ChartLisp.evaluate e).exec (Run.start scope)).1 ≠ .error .noProgram ∧
      ((ChartLisp.evaluate e).exec (Run.start scope)).1 ≠ .error .interrupted := by
  have hcourse := eval_course depthLimit e (Run.start scope)
  refine ⟨fun h => hcourse.ne_noProgram ?_, fun h => (hcourse.raised rfl).2 ?_⟩
  · exact failure_eq_some.mpr h
  · exact failure_eq_some.mpr h

/-- no evaluation looks at the log -/
theorem exec_evaluate_log (e : Expr) (scope : Scope) (log : List Event) :
    ((ChartLisp.evaluate e).exec ⟨scope, false, log⟩).1 =
        ((ChartLisp.evaluate e).exec (Run.start scope)).1 ∧
      ((ChartLisp.evaluate e).exec ⟨scope, false, log⟩).2.scope =
        ((ChartLisp.evaluate e).exec (Run.start scope)).2.scope := by
  have hsim : Action.Sim (fun _ => False) Eq Eq (eval depthLimit e) (eval depthLimit e) :=
    equal_simulation.eval_sim depthLimit e e rfl
  have hagree := hsim ⟨scope, false, log⟩ (Run.start scope) ⟨rfl, rfl⟩
  unfold ChartLisp.evaluate
  generalize (eval depthLimit e).exec ⟨scope, false, log⟩ = x at hagree ⊢
  generalize (eval depthLimit e).exec (Run.start scope) = y at hagree ⊢
  cases hagree with
  | stopped h => exact h.elim
  | ok hv hl => exact ⟨congrArg Except.ok hv, hl.scope⟩
  | error hl => exact ⟨rfl, hl.scope⟩

/-- an evaluation that is not stopped is that of the program alone -/
theorem evaluate_undisturbed {s : Session} {e : Expr} (hp : s.program = some e)
    (hr : s.pending = false) :
    s.evaluate.1 = ((ChartLisp.evaluate e).exec (Run.start s.scope)).1 ∧
      s.evaluate.2 =
        { s with
          root := ((ChartLisp.evaluate e).exec (Run.start s.scope)).2.scope.root
          log := s.evaluate.2.log } := by
  obtain ⟨log, heq⟩ := evaluate_calm hp hr
  obtain ⟨hvalue, hscope⟩ := exec_evaluate_log e s.scope s.log
  rw [heq, hvalue, hscope]
  exact ⟨rfl, rfl⟩

/-! ## Flags -/

/-- how many flags there are after the operation, if there were `n` before -/
def Op.flags (n : Nat) : Op → Nat
  | .attach => n + 1
  | .handle => max n 1
  | _ => n

def flagsAfter (ops : List Op) : Nat := ops.foldl Op.flags 0

/-- the latest of `n` flags -/
def newest (n : Nat) : Option Signals.Handle := if n = 0 then none else some (n - 1)

def attachedAfter (ops : List Op) : Option Signals.Handle := newest (flagsAfter ops)

/-- A flag is lowered by taking it, or by an evaluation of a program that it is attached for. -/
def Lowers (h : Signals.Handle) (ops : List Op) : Op → Prop
  | .take k => k = h
  | .evaluate => attachedAfter ops = some h ∧ latestProgram ops ≠ none
  | _ => False

inductive UpAfter (h : Signals.Handle) : List Op → Prop where
  | raised {ops : List Op} (hh : h < flagsAfter ops) : UpAfter h (ops ++ [.raise h])
  | kept {ops : List Op} {op : Op} (hup : UpAfter h ops) (hop : ¬ Lowers h ops op) :
      UpAfter h (ops ++ [op])

theorem flagsAfter_append (ops : List Op) (op : Op) :
    flagsAfter (ops ++ [op]) = op.flags (flagsAfter ops) := by
  rw [flagsAfter, List.foldl_append]
  rfl

theorem not_upAfter_nil (h : Signals.Handle) : ¬ UpAfter h [] := by
  intro hup
  generalize hops : ([] : List Op) = ops at hup
  cases hup <;> simp at hops

theorem upAfter_append {h : Signals.Handle} {ops : List Op} {op : Op} :
    UpAfter h (ops ++ [op]) ↔
      (op = .raise h ∧ h < flagsAfter ops) ∨ (UpAfter h ops ∧ ¬ Lowers h ops op) := by
  constructor
  · intro hup
    generalize hops : ops ++ [op] = ops' at hup
    cases hup with
    | raised hh =>
      obtain ⟨rfl, hop⟩ := List.append_inj' hops rfl
      obtain rfl := List.singleton_inj.mp hop
      exact .inl ⟨rfl, hh⟩
    | kept hup hlow =>
      obtain ⟨rfl, hop⟩ := List.append_inj' hops rfl
      obtain rfl := List.singleton_inj.mp hop
      exact .inr ⟨hup, hlow⟩
  · rintro (⟨rfl, hh⟩ | ⟨hup, hlow⟩)
    · exact .raised hh
    · exact .kept hup hlow

/-- operations that neither replace the attached flag nor lower it -/
def Op.leaves (h : Signals.Handle) : Op → Bool
  | .take k => k != h
  | .evaluate => false
  | .attach => false
  | _ => true

theorem lt_of_newest {n : Nat} {h : Signals.Handle} (hn : newest n = some h) : h < n := by
  unfold newest at hn
  split at hn
  · cases hn
  · rename_i hne
    obtain rfl := Option.some.inj hn
    exact Nat.sub_lt (Nat.pos_of_ne_zero hne) Nat.one_pos

/-- the attached flag, once raised, stays attached and up as long as it is left alone -/
theorem upAfter_of_leaves {h : Signals.Handle} {ops : List Op} (ha : attachedAfter ops = some h)
    (mid : List Op) (hmid : ∀ op ∈ mid, op.leaves h = true) :
    attachedAfter (ops ++ .raise h :: mid) = some h ∧ UpAfter h (ops ++ .raise h :: mid) := by
  induction mid using List.reverseRecOn with
  | nil =>
    refine ⟨?_, .raised (lt_of_newest ha)⟩
    rw [attachedAfter, flagsAfter_append]
    exact ha
  | append_singleton mid op ih =>
    obtain ⟨hattached, hup⟩ := ih fun op' hop' => hmid op' (List.mem_append_left _ hop')
    have hop : op.leaves h = true := hmid op (List.mem_append_right _ List.mem_cons_self)
    rw [← List.cons_append, ← List.append_assoc]
    constructor
    · have hflags : op.flags (flagsAfter (ops ++ .raise h :: mid)) =
          flagsAfter (ops ++ .raise h :: mid) := by
        have hlt := lt_of_newest hattached
        cases op with
        | handle => exact Nat.max_eq_left (Nat.zero_lt_of_lt hlt)
        | attach => cases hop
        | parse _ | parseBytes _ | evaluate | reset | raise _ | take _ => rfl
      rw [attachedAfter, flagsAfter_append, hflags]
      exact hattached
    · refine .kept hup fun hlowers => ?_
      cases op with
      | take k =>
        rw [show k = h from hlowers] at hop
        simp [Op.leaves] at hop
      | evaluate => cases hop
      | parse _ | parseBytes _ | reset | attach | handle | raise _ => exact hlowers

theorem parse_signals (s : Session) (source : String) :
    (s.parse source).2.signals = s.signals ∧ (s.parse source).2.attached = s.attached := by
  unfold parse
  split <;> exact ⟨rfl, rfl⟩

theorem parseBytes_signals (s : Session) (bytes : ByteArray) :
    (s.parseBytes bytes).2.signals = s.signals ∧ (s.parseBytes bytes).2.attached = s.attached := by
  unfold parseBytes
  cases String.fromUTF8? bytes with
  | none => exact ⟨rfl, rfl⟩
  | some source =>
    have hs := s.parse_signals source
    dsimp only
    generalize s.parse source = x at hs ⊢
    obtain ⟨result, s'⟩ := x
    cases result <;> exact hs

theorem handle_of_none {s : Session} (h : s.attached = none) : s.handle = s.attach := by
  unfold handle
  rw [h]

theorem handle_of_some {s : Session} {h : Signals.Handle} (ha : s.attached = some h) :
    s.handle = (h, s) := by
  unfold handle
  rw [ha]

/-- an evaluation keeps the flags, or lowers the attached one -/
theorem evaluate_signals (s : Session) :
    s.evaluate.2.attached = s.attached ∧ s.evaluate.2.signals.length = s.signals.length ∧
      ∀ h, s.evaluate.2.isRaised h = true ↔
        s.isRaised h = true ∧ ¬ (s.attached = some h ∧ s.program ≠ none) := by
  cases hp : s.program with
  | none =>
    rw [evaluate_none hp]
    simp
  | some e =>
    cases hr : s.pending with
    | true =>
      obtain ⟨k, log, ha, _, heq⟩ := evaluate_pending hp hr
      rw [heq]
      refine ⟨rfl, List.length_set, fun h => ?_⟩
      show (s.signals.lower k).isRaised h = true ↔ _
      rw [Signals.isRaised_lower_iff, ha]
      simp [isRaised]
    | false =>
      rw [(evaluate_undisturbed hp hr).2]
      refine ⟨rfl, rfl, fun h => ⟨fun hh => ⟨hh, fun hattached => ?_⟩, fun hh => hh.1⟩⟩
      have hpending := pending_eq_true.mpr ⟨h, hattached.1, hh⟩
      rw [hr] at hpending
      cases hpending

/-- Each operation makes as many flags as `Op.flags` says, and the latest is attached. -/
theorem perform_attached {s : Session} (hs : s.attached = newest s.signals.length) (op : Op) :
    (s.perform op).signals.length = op.flags s.signals.length ∧
      (s.perform op).attached = newest (op.flags s.signals.length) := by
  have hattach : s.attach.2.signals.length = s.signals.length + 1 ∧
      s.attach.2.attached = newest (s.signals.length + 1) := by
    refine ⟨?_, rfl⟩
    show (s.signals ++ [false]).length = _
    rw [List.length_append, List.length_singleton]
  cases op with
  | parse source =>
    obtain ⟨hsignals, hattached⟩ := s.parse_signals source
    exact ⟨congrArg List.length hsignals, hattached.trans hs⟩
  | parseBytes bytes =>
    obtain ⟨hsignals, hattached⟩ := s.parseBytes_signals bytes
    exact ⟨congrArg List.length hsignals, hattached.trans hs⟩
  | evaluate =>
    obtain ⟨hattached, hlength, -⟩ := s.evaluate_signals
    exact ⟨hlength, hattached.trans hs⟩
  | reset => exact ⟨rfl, hs⟩
  | attach => exact hattach
  | handle =>
    show s.handle.2.signals.length = max s.signals.length 1 ∧
      s.handle.2.attached = newest (max s.signals.length 1)
    by_cases hzero : s.signals.length = 0
    · rw [newest, if_pos hzero] at hs
      rw [handle_of_none hs, hzero]
      rw [hzero] at hattach
      exact hattach
    · have hmax : max s.signals.length 1 = s.signals.length := by omega
      have hsome := hs
      rw [newest, if_neg hzero] at hsome
      rw [handle_of_some hsome, hmax]
      exact ⟨rfl, hs⟩
  | raise h => exact ⟨List.length_set, hs⟩
  | take h => exact ⟨List.length_set, hs⟩

/-- Only a raise puts a flag up; taking it, or evaluating a program that it is attached for, lowers
it; and nothing else changes it. -/
theorem perform_isRaised (s : Session) (op : Op) (h : Signals.Handle) :
    (s.perform op).isRaised h = true ↔
      (op = .raise h ∧ h < s.signals.length) ∨
      (s.isRaised h = true ∧ op ≠ .take h ∧
        ¬ (op = .evaluate ∧ s.attached = some h ∧ s.program ≠ none)) := by
  have hnew : s.attach.2.isRaised h = s.isRaised h := Signals.isRaised_append s.signals h
  cases op with
  | parse source =>
    show (s.parse source).2.signals.isRaised h = true ↔ _
    rw [(s.parse_signals source).1]
    simp [isRaised]
  | parseBytes bytes =>
    show (s.parseBytes bytes).2.signals.isRaised h = true ↔ _
    rw [(s.parseBytes_signals bytes).1]
    simp [isRaised]
  | evaluate =>
    show s.evaluate.2.isRaised h = true ↔ _
    rw [s.evaluate_signals.2.2 h]
    simp
  | reset =>
    show s.isRaised h = true ↔ _
    simp
  | attach =>
    show s.attach.2.isRaised h = true ↔ _
    rw [hnew]
    simp
  | handle =>
    have hhandle : s.handle.2.isRaised h = s.isRaised h := by
      cases ha : s.attached with
      | none => rw [handle_of_none ha, hnew]
      | some k => rw [handle_of_some ha]
    show s.handle.2.isRaised h = true ↔ _
    rw [hhandle]
    simp
  | raise k =>
    show Signals.isRaised (s.signals.set k true) h = true ↔ _
    rw [Signals.isRaised_set]
    by_cases hk : k = h ∧ h < s.signals.length
    · simp [hk]
    · simp [hk, isRaised]
  | take k =>
    show (s.signals.lower k).isRaised h = true ↔ _
    rw [Signals.isRaised_lower_iff]
    simp [isRaised]

theorem run_attached (ops : List Op) :
    (fresh.run ops).signals.length = flagsAfter ops ∧
      (fresh.run ops).attached = attachedAfter ops := by
  induction ops using List.reverseRecOn with
  | nil => exact ⟨rfl, rfl⟩
  | append_singleton ops op ih =>
    obtain ⟨hlength, hattached⟩ := ih
    have hstep := perform_attached (s := fresh.run ops) (by rw [hlength]; exact hattached) op
    rw [hlength] at hstep
    rw [run_append, attachedAfter, flagsAfter_append]
    exact hstep

/-- the handles that a session gives out are those of the flag that is attached then -/
theorem run_handed (ops : List Op) :
    attachedAfter (ops ++ [.handle]) = some (fresh.run ops).handle.1 ∧
      attachedAfter (ops ++ [.attach]) = some (fresh.run ops).attach.1 := by
  have hhandle : (fresh.run ops).handle.2.attached = some (fresh.run ops).handle.1 := by
    cases ha : (fresh.run ops).attached with
    | none =>
      rw [handle_of_none ha]
      rfl
    | some h =>
      rw [handle_of_some ha]
      exact ha
  rw [← (run_attached _).2, ← (run_attached _).2, run_append, run_append]
  exact ⟨hhandle, rfl⟩

theorem run_isRaised (ops : List Op) (h : Signals.Handle) :
    (fresh.run ops).isRaised h = true ↔ UpAfter h ops := by
  induction ops using List.reverseRecOn with
  | nil => exact iff_of_false (by simp [run, fresh, isRaised, Signals.isRaised]) (not_upAfter_nil h)
  | append_singleton ops op ih =>
    rw [run_append, upAfter_append, ← ih]
    show ((fresh.run ops).perform op).isRaised h = true ↔ _
    rw [perform_isRaised, (run_attached ops).1, (run_attached ops).2, run_program]
    cases op <;> simp [Lowers]

end Session

end ChartLisp
