import ChartLisp.Proofs.History

/-!
# Programs and interrupts of a session

An evaluation finds no program, or is stopped by the attached flag, or goes on as if there were no
flags at all.  Which of the three is decided by the operations before it.

* `EvaluatesAfter ops s`     what an evaluation answers and leaves after the operations `ops`
* `outcomes`                 what the evaluations of a run answer
* `SameBut h`                sessions that differ at most in the flag `h`, which is not attached
* `session_interrupts`       every evaluation of every run does this; a raise of the attached flag is
                             not lost and stops one evaluation at most, a replaced flag stops none,
                             and a stopped program can be evaluated again
-/

namespace ChartLisp

namespace Session

/-- What an evaluation of `s`, reached by the operations `ops`, answers and leaves. -/
structure EvaluatesAfter (ops : List Op) (s : Session) : Prop where
  attached : s.attached = attachedAfter ops
  /-- the handles given out are those of the flag attached then -/
  handed : attachedAfter (ops ++ [.handle]) = some s.handle.1 ∧
    attachedAfter (ops ++ [.attach]) = some s.attach.1
  raised (h : Signals.Handle) : s.isRaised h = true ↔ UpAfter h ops
  noProgram : s.evaluate.1 = .error .noProgram ↔ latestProgram ops = none
  unchanged : latestProgram ops = none → s.evaluate.2 = s
  interrupted : s.evaluate.1 = .error .interrupted ↔
    latestProgram ops ≠ none ∧ ∃ h, attachedAfter ops = some h ∧ UpAfter h ops
  /-- only the attached flag changes -/
  lowered (h : Signals.Handle) : attachedAfter ops = some h → s.evaluate.1 = .error .interrupted →
    s.evaluate.2 = { s with signals := s.signals.lower h, log := s.evaluate.2.log }
  /-- the program's own outcome and definitions, and no flag changes -/
  undisturbed (e : Expr) : latestProgram ops = some e → s.evaluate.1 ≠ .error .interrupted →
    s.evaluate.1 = ((ChartLisp.evaluate e).exec (Run.start s.scope)).1 ∧
      s.evaluate.2 =
        { s with
          root := ((ChartLisp.evaluate e).exec (Run.start s.scope)).2.scope.root
          log := s.evaluate.2.log }

theorem pending_iff {ops : List Op} {s : Session} (hattached : s.attached = attachedAfter ops)
    (hraised : ∀ h, s.isRaised h = true ↔ UpAfter h ops) :
    s.pending = true ↔ ∃ h, attachedAfter ops = some h ∧ UpAfter h ops := by
  rw [pending_eq_true, hattached]
  simp only [hraised]

theorem evaluatesAfter (ops : List Op) : EvaluatesAfter ops (fresh.run ops) := by
  have hattached := (run_attached ops).2
  have hhanded := run_handed ops
  have hraised := run_isRaised ops
  have hs := run_program ops
  generalize fresh.run ops = s at hattached hhanded hraised hs
  have hpending := pending_iff hattached hraised
  cases hp : latestProgram ops with
  | none =>
    rw [hp] at hs
    have heq := evaluate_none hs
    exact
      { attached := hattached
        handed := hhanded
        raised := hraised
        noProgram := by simp [heq, hp]
        unchanged := fun _ => by rw [heq]
        interrupted := by simp [heq, hp]
        lowered := fun h _ hi => by simp [heq] at hi
        undisturbed := fun e he => by simp [hp] at he }
  | some e =>
    rw [hp] at hs
    cases hr : s.pending with
    | true =>
      obtain ⟨h, log, ha, _, heq⟩ := evaluate_pending hs hr
      exact
        { attached := hattached
          handed := hhanded
          raised := hraised
          noProgram := by simp [heq, hp]
          unchanged := fun hn => by simp [hp] at hn
          interrupted := by simpa [heq, hp] using hpending.mp hr
          lowered := fun h' ha' _ => by
            rw [← hattached, ha] at ha'
            cases ha'
            rw [heq]
          undisturbed := fun _ _ hne => absurd (by rw [heq]) hne }
    | false =>
      have hund := evaluate_undisturbed hs hr
      have hne := exec_evaluate_start e s.scope
      have hlow : ¬ ∃ h, attachedAfter ops = some h ∧ UpAfter h ops := by
        rw [← hpending, hr]
        exact Bool.false_ne_true
      exact
        { attached := hattached
          handed := hhanded
          raised := hraised
          noProgram := by
            rw [hund.1]
            simpa [hp] using hne.1
          unchanged := fun hn => by simp [hp] at hn
          interrupted := by
            rw [hund.1]
            exact ⟨fun hi => absurd hi hne.2, fun hi => absurd hi.2 hlow⟩
          lowered := fun _ _ hi => absurd (hund.1 ▸ hi) hne.2
          undisturbed := fun e' he' _ => by
            rw [hp] at he'
            cases he'
            exact hund }

/-- a stopped evaluation, asked for again, is undisturbed -/
theorem evaluate_again {s : Session} {e : Expr} (hp : s.program = some e)
    (hi : s.evaluate.1 = .error .interrupted) :
    s.evaluate.2.evaluate.1 = ((ChartLisp.evaluate e).exec (Run.start s.scope)).1 ∧
      s.evaluate.2.evaluate.2.root =
        ((ChartLisp.evaluate e).exec (Run.start s.scope)).2.scope.root := by
  cases hr : s.pending with
  | false =>
    rw [(evaluate_undisturbed hp hr).1] at hi
    exact absurd hi (exec_evaluate_start e s.scope).2
  | true =>
    obtain ⟨h, log, ha, _, heq⟩ := evaluate_pending hp hr
    rw [heq]
    have hcalm : pending { s with signals := s.signals.lower h, log := log } = false := by
      unfold pending
      rw [ha]
      exact Signals.isRaised_lower s.signals h
    have hund := evaluate_undisturbed (s := { s with signals := s.signals.lower h, log := log })
      hp hcalm
    refine ⟨hund.1, ?_⟩
    rw [hund.2]
    rfl

/-! ## Runs -/

/-- what an operation answers, if it is an evaluation -/
def outcome? (s : Session) : Op → Option (Except EvalError Expr)
  | .evaluate => some s.evaluate.1
  | _ => none

/-- what the evaluations of a run answer, in their order -/
def outcomes (s : Session) : List Op → List (Except EvalError Expr)
  | [] => []
  | op :: ops => (s.outcome? op).toList ++ (s.perform op).outcomes ops

def wasInterrupted : Except EvalError Expr → Bool
  | .error .interrupted => true
  | _ => false

def Op.isRaise : Op → Bool
  | .raise _ => true
  | _ => false

/-- whether the operation raises or takes the flag `h` -/
def Op.touches (h : Signals.Handle) : Op → Bool
  | .raise k => k == h
  | .take k => k == h
  | _ => false

/-! ### A raise stops one evaluation at most -/

theorem count_lower {s : Signals} {h : Signals.Handle} (hr : s.isRaised h = true) :
    (s.lower h).count true + 1 = s.count true := by
  have hsome : s[h]? = some true := by
    unfold Signals.isRaised at hr
    rw [List.getD_eq_getElem?_getD] at hr
    cases hx : s[h]? with
    | none =>
      rw [hx] at hr
      cases hr
    | some b =>
      rw [hx] at hr
      exact congrArg some hr
  obtain ⟨hlt, hget⟩ := List.getElem?_eq_some_iff.mp hsome
  have hpos : 0 < s.count true := List.count_pos_iff.mpr (hget ▸ List.getElem_mem hlt)
  unfold Signals.lower
  rw [List.count_set hlt, hget]
  simp
  omega

theorem count_set_le (s : Signals) (h : Signals.Handle) (b : Bool) :
    (s.set h b).count true ≤ s.count true + b.toNat := by
  by_cases hlt : h < s.length
  · rw [List.count_set hlt]
    cases b <;> simp
  · rw [List.set_eq_of_length_le (Nat.le_of_not_lt hlt)]
    omega

/-- An operation that stops an evaluation lowers a flag, and only a raise puts one up. -/
theorem perform_count (s : Session) (op : Op) :
    (s.outcome? op).toList.countP wasInterrupted + (s.perform op).signals.count true ≤
      op.isRaise.toNat + s.signals.count true := by
  cases op with
  | parse source =>
    show 0 + (s.parse source).2.signals.count true ≤ 0 + s.signals.count true
    rw [(s.parse_signals source).1]
  | parseBytes bytes =>
    show 0 + (s.parseBytes bytes).2.signals.count true ≤ 0 + s.signals.count true
    rw [(s.parseBytes_signals bytes).1]
  | evaluate =>
    show [s.evaluate.1].countP wasInterrupted + s.evaluate.2.signals.count true ≤
      0 + s.signals.count true
    cases hp : s.program with
    | none =>
      rw [evaluate_none hp]
      simp [wasInterrupted]
    | some e =>
      cases hr : s.pending with
      | true =>
        obtain ⟨h, log, ha, hh, heq⟩ := evaluate_pending hp hr
        have hcount := count_lower hh
        rw [heq]
        show 1 + (s.signals.lower h).count true ≤ 0 + s.signals.count true
        omega
      | false =>
        obtain ⟨hvalue, hrest⟩ := evaluate_undisturbed hp hr
        have hne : wasInterrupted s.evaluate.1 = false := by
          have hcalm := (exec_evaluate_start e s.scope).2
          rw [← hvalue] at hcalm
          unfold wasInterrupted
          split
          · rename_i hi
            exact absurd hi hcalm
          · rfl
        rw [hrest, List.countP_singleton, hne]
        simp
  | reset => exact Nat.le_refl _
  | attach =>
    show 0 + (s.signals ++ [false]).count true ≤ 0 + s.signals.count true
    simp
  | handle =>
    show 0 + s.handle.2.signals.count true ≤ 0 + s.signals.count true
    unfold handle
    split
    · exact Nat.le_refl _
    · show 0 + (s.signals ++ [false]).count true ≤ 0 + s.signals.count true
      simp
  | raise h =>
    have hset := count_set_le s.signals h true
    show 0 + (s.signals.set h true).count true ≤ 1 + s.signals.count true
    simp at hset
    omega
  | take h =>
    have hset := count_set_le s.signals h false
    show 0 + (s.signals.set h false).count true ≤ 0 + s.signals.count true
    simp at hset
    omega

theorem outcomes_count (s : Session) (ops : List Op) :
    (s.outcomes ops).countP wasInterrupted + (s.run ops).signals.count true ≤
      ops.countP Op.isRaise + s.signals.count true := by
  induction ops generalizing s with
  | nil => exact Nat.le_refl _
  | cons op ops ih =>
    have hstep := s.perform_count op
    have hrest := ih (s.perform op)
    have hraise : (op :: ops).countP Op.isRaise = ops.countP Op.isRaise + op.isRaise.toNat := by
      rw [List.countP_cons]
      cases op.isRaise <;> rfl
    show ((s.outcome? op).toList ++ (s.perform op).outcomes ops).countP wasInterrupted +
      ((s.perform op).run ops).signals.count true ≤ _
    rw [List.countP_append, hraise]
    omega

/-! ### A replaced flag stops none -/

/-- sessions that differ at most in the log and in a flag that was replaced by a later one -/
structure SameBut (h : Signals.Handle) (s s' : Session) : Prop where
  root : s.root = s'.root
  program : s.program = s'.program
  attached : s.attached = s'.attached
  length : s.signals.length = s'.signals.length
  flags (k : Signals.Handle) : k ≠ h → s.signals[k]? = s'.signals[k]?
  exists_flag : h < s.signals.length
  replaced (k : Signals.Handle) : s.attached = some k → h < k

namespace SameBut

variable {h : Signals.Handle} {s s' : Session}

theorem scope (hs : SameBut h s s') : s.scope = s'.scope := congrArg (Scope.mk []) hs.root

theorem pending (hs : SameBut h s s') : s.pending = s'.pending := by
  unfold Session.pending
  rw [← hs.attached]
  cases ha : s.attached with
  | none => rfl
  | some k =>
    have hk : k ≠ h := Nat.ne_of_gt (hs.replaced k ha)
    show s.signals.getD k false = s'.signals.getD k false
    rw [List.getD_eq_getElem?_getD, List.getD_eq_getElem?_getD, hs.flags k hk]

/-- flags written at one place on both sides -/
theorem flags_set (hs : SameBut h s s') (j : Signals.Handle) (b : Bool) (k : Signals.Handle)
    (hk : k ≠ h) : (s.signals.set j b)[k]? = (s'.signals.set j b)[k]? := by
  rw [List.getElem?_set, List.getElem?_set, hs.length, hs.flags k hk]

theorem set (hs : SameBut h s s') (j : Signals.Handle) (b : Bool) :
    SameBut h { s with signals := s.signals.set j b } { s' with signals := s'.signals.set j b } :=
  { hs with
    length := by rw [List.length_set, List.length_set, hs.length]
    flags := hs.flags_set j b
    exists_flag := by rw [List.length_set]; exact hs.exists_flag }

/-- the replaced flag itself, written on one side only -/
theorem set_left (hs : SameBut h s s') (b : Bool) :
    SameBut h { s with signals := s.signals.set h b } s' :=
  { hs with
    length := by rw [List.length_set, hs.length]
    flags := fun k hk => by rw [List.getElem?_set_ne (Ne.symm hk), hs.flags k hk]
    exists_flag := by rw [List.length_set]; exact hs.exists_flag }

theorem attach (hs : SameBut h s s') : SameBut h s.attach.2 s'.attach.2 where
  root := hs.root
  program := hs.program
  attached := congrArg some hs.length
  length := by simp [Session.attach, hs.length]
  flags k hk := by
    show (s.signals ++ [false])[k]? = (s'.signals ++ [false])[k]?
    rw [List.getElem?_append, List.getElem?_append, hs.length, hs.flags k hk]
  exists_flag := by
    show h < (s.signals ++ [false]).length
    rw [List.length_append]
    exact Nat.lt_succ_of_lt hs.exists_flag
  replaced k hk := by
    cases hk
    exact hs.exists_flag

theorem evaluate (hs : SameBut h s s') :
    s.evaluate.1 = s'.evaluate.1 ∧ SameBut h s.evaluate.2 s'.evaluate.2 := by
  cases hp : s.program with
  | none =>
    rw [evaluate_none hp, evaluate_none (hs.program ▸ hp)]
    exact ⟨rfl, hs⟩
  | some e =>
    have hp' : s'.program = some e := hs.program ▸ hp
    cases hr : s.pending with
    | true =>
      obtain ⟨k, log, ha, _, heq⟩ := evaluate_pending hp hr
      obtain ⟨k', log', ha', _, heq'⟩ := evaluate_pending hp' (hs.pending ▸ hr)
      have hk : k = k' := by
        rw [hs.attached, ha'] at ha
        exact (Option.some.inj ha).symm
      subst hk
      rw [heq, heq']
      exact ⟨rfl, { hs.set k false with }⟩
    | false =>
      obtain ⟨hvalue, hrest⟩ := evaluate_undisturbed hp hr
      obtain ⟨hvalue', hrest'⟩ := evaluate_undisturbed hp' (hs.pending ▸ hr)
      rw [hvalue, hvalue', hrest, hrest', hs.scope]
      exact ⟨rfl, { hs with root := rfl }⟩

/-- sessions that have the flags of these -/
theorem transfer (hs : SameBut h s s') {t t' : Session} (hroot : t.root = t'.root)
    (hprogram : t.program = t'.program)
    (ht : t.signals = s.signals ∧ t.attached = s.attached)
    (ht' : t'.signals = s'.signals ∧ t'.attached = s'.attached) : SameBut h t t' where
  root := hroot
  program := hprogram
  attached := by rw [ht.2, ht'.2, hs.attached]
  length := by rw [ht.1, ht'.1, hs.length]
  flags k hk := by rw [ht.1, ht'.1, hs.flags k hk]
  exists_flag := by rw [ht.1]; exact hs.exists_flag
  replaced k hk := hs.replaced k (ht.2 ▸ hk)

/-- the same operation on both sides -/
theorem perform (hs : SameBut h s s') (op : Op) : SameBut h (s.perform op) (s'.perform op) := by
  cases op with
  | parse source =>
    refine hs.transfer ?_ ?_ (s.parse_signals source) (s'.parse_signals source)
    · exact (s.parse_root source).trans (hs.root.trans (s'.parse_root source).symm)
    · rw [perform_program, perform_program, hs.program]
  | parseBytes bytes =>
    refine hs.transfer ?_ ?_ (s.parseBytes_signals bytes) (s'.parseBytes_signals bytes)
    · exact (s.parseBytes_root bytes).trans (hs.root.trans (s'.parseBytes_root bytes).symm)
    · rw [perform_program, perform_program, hs.program]
  | evaluate => exact hs.evaluate.2
  | reset => exact { hs with root := rfl }
  | attach => exact hs.attach
  | handle =>
    show SameBut h s.handle.2 s'.handle.2
    unfold handle
    rw [← hs.attached]
    split
    · exact hs
    · exact hs.attach
  | raise k => exact hs.set k true
  | take k => exact hs.set k false

/-- an operation on the replaced flag, on one side only -/
theorem perform_left (hs : SameBut h s s') {op : Op} (hop : op.touches h = true) :
    SameBut h (s.perform op) s' ∧ s.outcome? op = none := by
  cases op with
  | raise k =>
    cases beq_iff_eq.mp hop
    exact ⟨hs.set_left true, rfl⟩
  | take k =>
    cases beq_iff_eq.mp hop
    exact ⟨hs.set_left false, rfl⟩
  | parse _ | parseBytes _ | evaluate | reset | attach | handle => cases hop

theorem outcome? (hs : SameBut h s s') (op : Op) : s.outcome? op = s'.outcome? op := by
  cases op with
  | evaluate => exact congrArg some hs.evaluate.1
  | parse _ | parseBytes _ | reset | attach | handle | raise _ | take _ => rfl

/-- leaving out what is done with the replaced flag changes no answer -/
theorem run (hs : SameBut h s s') (ops : List Op) :
    s.outcomes ops = s'.outcomes (ops.filter fun op => !op.touches h) ∧
      SameBut h (s.run ops) (s'.run (ops.filter fun op => !op.touches h)) := by
  induction ops generalizing s s' with
  | nil => exact ⟨rfl, hs⟩
  | cons op ops ih =>
    cases ht : op.touches h with
    | true =>
      obtain ⟨hnext, hnone⟩ := hs.perform_left ht
      rw [List.filter_cons_of_neg (by simp [ht])]
      show (s.outcome? op).toList ++ (s.perform op).outcomes ops = _ ∧ _
      rw [hnone]
      exact ih hnext
    | false =>
      obtain ⟨hout, hrun⟩ := ih (hs.perform op)
      rw [List.filter_cons_of_pos (by simp [ht])]
      show (s.outcome? op).toList ++ (s.perform op).outcomes ops =
        (s'.outcome? op).toList ++ (s'.perform op).outcomes _ ∧ _
      rw [hs.outcome? op, hout]
      exact ⟨rfl, hrun⟩

/-- every flag there was is replaced by a new one -/
theorem of_attach (s : Session) (hlt : h < s.signals.length) : SameBut h s.attach.2 s.attach.2 where
  root := rfl
  program := rfl
  attached := rfl
  length := rfl
  flags _ _ := rfl
  exists_flag := by
    show h < (s.signals ++ [false]).length
    rw [List.length_append]
    exact Nat.lt_succ_of_lt hlt
  replaced k hk := by
    cases hk
    exact hlt

end SameBut

/-- In every run, an evaluation answers `noProgram` exactly if nothing was parsed or the last parse
failed, and changes nothing then; otherwise it answers `interrupted` exactly if the flag attached
last was raised and not lowered since, and only lowers it; otherwise its answer and its definitions
are those of the program without any interrupt.  So a raise of the attached flag is not lost by what
comes between it and an evaluation, there are no more interrupted evaluations than raises, what is
done with a flag after it was replaced is without effect, and an interrupted program can be evaluated
again. -/
theorem session_interrupts :
    (∀ ops, EvaluatesAfter ops (fresh.run ops)) ∧
    (∀ ops mid h, attachedAfter ops = some h → (∀ op ∈ mid, op.leaves h = true) →
      latestProgram (ops ++ .raise h :: mid) ≠ none →
        (fresh.run (ops ++ .raise h :: mid)).evaluate.1 = .error .interrupted) ∧
    (∀ ops, (fresh.outcomes ops).countP wasInterrupted ≤ ops.countP Op.isRaise) ∧
    (∀ (s : Session) (h : Signals.Handle) ops, h < s.signals.length →
      s.attach.2.outcomes ops = s.attach.2.outcomes (ops.filter fun op => !op.touches h) ∧
      SameBut h (s.attach.2.run ops) (s.attach.2.run (ops.filter fun op => !op.touches h))) ∧
    (∀ (s : Session) (e : Expr), s.program = some e → s.evaluate.1 = .error .interrupted →
      s.evaluate.2.evaluate.1 = ((ChartLisp.evaluate e).exec (Run.start s.scope)).1 ∧
      s.evaluate.2.evaluate.2.root =
        ((ChartLisp.evaluate e).exec (Run.start s.scope)).2.scope.root) := by
  refine ⟨evaluatesAfter, fun ops mid h ha hmid hp => ?_, fun ops => ?_, fun s h ops hlt => ?_, ?_⟩
  · exact (evaluatesAfter _).interrupted.mpr ⟨hp, h, upAfter_of_leaves ha mid hmid⟩
  · have hcount := fresh.outcomes_count ops
    have hnone : fresh.signals.count true = 0 := rfl
    omega
  · exact (SameBut.of_attach s hlt).run ops
  · intro s e hp hi
    exact evaluate_again hp hi

example :
    fresh.outcomes [.handle, .raise 0, .parse "(list)", .evaluate, .evaluate, .parse ")", .evaluate] =
      [.error .interrupted, .ok (Expr.list []), .error .noProgram] := rfl

end Session

end ChartLisp
