import ChartLisp.Plot.Continuous
import Mathlib.Data.List.Forall2

/-!
# Runs of samplings

A run puts the questions of a sampling to a function.  It is the same for every way to write the
sampling as a sequence (`answerAfter_bind`), and what it asks next depends on the answers it has got
(`next_question`).

* `answerAfter_bind`, `bind_ok`     runs of two samplings one after the other
* `Answers`, `Result`               every run ends with a result, whatever came before; its results
* `next_question`                   functions that answer the first questions alike are asked alike
* `Ensures P s`                     each value is checked before anything else is asked, and what is
                                    asked and found on the way to a result is as `P` says
* `Ensures.bind`, `Ensures.mapM`    the same for sequences
* `Ensures.result`, `Ensures.fault`, `Ensures.error`   what that says of a run: its result, its
                                    end at a value that fails, and that nothing else makes it fail
* `Asks P Q s`                      whatever the answers are, all questions are as `P` says and
                                    every result as `Q` says; `Asks.asked` says this of a run
-/

namespace ChartLisp.Plot.Sampling

variable {α β : Type} {f g : List Double → Double → Except EvalError Double}
  {earlier : List Double}

/-! ## Sequences -/

theorem answerAfter_bind (f : List Double → Double → Except EvalError Double)
    (earlier : List Double) (s : Sampling α) (k : α → Sampling β) :
    (s >>= k).answerAfter f earlier =
      match (s.answerAfter f earlier).outcome with
      | .ok a =>
        let r := (k a).answerAfter f (earlier ++ (s.answerAfter f earlier).asked)
        ⟨r.outcome, (s.answerAfter f earlier).asked ++ r.asked,
          (s.answerAfter f earlier).log ++ r.log⟩
      | .error e => ⟨.error e, (s.answerAfter f earlier).asked, (s.answerAfter f earlier).log⟩ := by
  induction s generalizing earlier with
  | done a =>
    show (k a).answerAfter f earlier = _
    simp [answerAfter]
  | fail e => rfl
  | note v s ih =>
    show Sampling.answerAfter f earlier (.note v (s >>= k)) = _
    simp only [answerAfter, ih]
    cases (s.answerAfter f earlier).outcome <;> rfl
  | ask x next ih =>
    show Sampling.answerAfter f earlier (.ask x fun y => next y >>= k) = _
    simp only [answerAfter]
    cases f earlier x with
    | error e => rfl
    | ok y =>
      simp only [ih]
      cases ((next y).answerAfter f (earlier ++ [x])).outcome with
      | error e => rfl
      | ok a => simp [List.append_assoc]

theorem bind_ok {s : Sampling α} {k : α → Sampling β} {b : β}
    (h : ((s >>= k).answerAfter f earlier).outcome = .ok b) :
    ∃ a, (s.answerAfter f earlier).outcome = .ok a ∧
      ((k a).answerAfter f (earlier ++ (s.answerAfter f earlier).asked)).outcome = .ok b ∧
      ((s >>= k).answerAfter f earlier).asked = (s.answerAfter f earlier).asked ++
        ((k a).answerAfter f (earlier ++ (s.answerAfter f earlier).asked)).asked := by
  rw [answerAfter_bind] at h ⊢
  cases hs : (s.answerAfter f earlier).outcome with
  | error e =>
    rw [hs] at h
    cases h
  | ok a =>
    rw [hs] at h
    exact ⟨a, rfl, h, rfl⟩

/-- every run of the sampling on `f` ends with a result -/
def Answers (f : List Double → Double → Except EvalError Double) (s : Sampling α) : Prop :=
  ∀ earlier, ∃ a, (s.answerAfter f earlier).outcome = .ok a

/-- the results that runs of the sampling on `f` can have -/
def Result (f : List Double → Double → Except EvalError Double) (s : Sampling α) (a : α) : Prop :=
  ∃ earlier, (s.answerAfter f earlier).outcome = .ok a

theorem Result.done {a b : α} (h : Result f (.done a) b) : b = a := by
  obtain ⟨earlier, hb⟩ := h
  cases hb
  rfl

theorem mapM_answers {g : β → Sampling α} {bs : List β} (h : ∀ b ∈ bs, Answers f (g b)) :
    Answers f (bs.mapM g) := by
  induction bs with
  | nil => exact fun _ => ⟨[], rfl⟩
  | cons b bs ih =>
    intro earlier
    obtain ⟨a, ha⟩ := h b List.mem_cons_self earlier
    obtain ⟨as, has⟩ := ih (fun c hc => h c (List.mem_cons_of_mem b hc))
      (earlier ++ ((g b).answerAfter f earlier).asked)
    refine ⟨a :: as, ?_⟩
    rw [List.mapM_cons, answerAfter_bind, ha]
    show ((bs.mapM g >>= fun as => pure (a :: as)).answerAfter f _).outcome = _
    rw [answerAfter_bind, has]
    rfl

theorem mapM_ok {g : β → Sampling α} {bs : List β} {as : List α}
    (h : ((bs.mapM g).answerAfter f earlier).outcome = .ok as) :
    List.Forall₂ (fun b a => Result f (g b) a) bs as := by
  induction bs generalizing earlier as with
  | nil =>
    cases h
    exact .nil
  | cons b bs ih =>
    rw [List.mapM_cons] at h
    obtain ⟨a, ha, hrest, -⟩ := bind_ok h
    obtain ⟨as', has, hdone, -⟩ := bind_ok hrest
    cases hdone
    exact .cons ⟨_, ha⟩ (ih has)

/-! ## Two functions -/

/-- a question is asked because of the answers to the earlier ones -/
theorem next_question (s : Sampling α) (k : Nat)
    (h : ∀ i < k, ∀ x, (s.answerAfter f earlier).asked[i]? = some x →
      ∃ y, f (earlier ++ (s.answerAfter f earlier).asked.take i) x = .ok y ∧
        g (earlier ++ (s.answerAfter f earlier).asked.take i) x = .ok y) :
    (s.answerAfter g earlier).asked.take k = (s.answerAfter f earlier).asked.take k ∧
      ∀ x, (s.answerAfter f earlier).asked[k]? = some x →
        (s.answerAfter g earlier).asked[k]? = some x := by
  induction s generalizing earlier k with
  | done a => exact ⟨rfl, fun x hx => hx⟩
  | fail e => exact ⟨rfl, fun x hx => hx⟩
  | note v s ih => exact ih k h
  | ask x next ih =>
    have hfirst (p : List Double → Double → Except EvalError Double) :
        ((Sampling.ask x next).answerAfter p earlier).asked[0]? = some x := by
      simp only [answerAfter]
      cases p earlier x <;> rfl
    cases k with
    | zero =>
      refine ⟨by rw [List.take_zero, List.take_zero], fun z hz => ?_⟩
      rw [hfirst f] at hz
      rw [hfirst g, hz]
    | succ k =>
      obtain ⟨y, hf, hg⟩ := h 0 (Nat.succ_pos k) x (hfirst f)
      rw [List.take_zero, List.append_nil] at hf hg
      have hasked (p : List Double → Double → Except EvalError Double) (hp : p earlier x = .ok y) :
          ((Sampling.ask x next).answerAfter p earlier).asked =
            x :: ((next y).answerAfter p (earlier ++ [x])).asked := by
        simp only [answerAfter, hp]
      rw [hasked f hf] at h ⊢
      rw [hasked g hg]
      have hrest := @ih y (earlier ++ [x]) k fun i hi z hz => by
        obtain ⟨v, hfv, hgv⟩ := h (i + 1) (by omega) z (by simpa using hz)
        rw [List.take_succ_cons] at hfv hgv
        rw [List.append_assoc]
        exact ⟨v, hfv, hgv⟩
      refine ⟨by rw [List.take_succ_cons, List.take_succ_cons, hrest.1], fun z hz => ?_⟩
      rw [List.getElem?_cons_succ] at hz ⊢
      exact hrest.2 z hz

/-! ## Checked values -/

/-- the point that the answer to a question gives, if the answer is a number and the point finite -/
def pointOf (x : Double) (r : Except EvalError Double) : Except EvalError Point :=
  r >>= finitePoint Continuous.procedure x

/-- The sampling fails with a value that gives no finite point, at once, and with nothing else; the
questions and the result of a run without such a value are as `P` says. -/
def Ensures (P : List Double → α → Prop) : Sampling α → Prop
  | .done a => P [] a
  | .fail _ => False
  | .note _ s => s.Ensures P
  | .ask x next => ∀ y,
    match finitePoint Continuous.procedure x y with
    | .ok _ => (next y).Ensures fun xs a => P (x :: xs) a
    | .error e => next y = .fail e

namespace Ensures

variable {P : List Double → α → Prop} {Q : List Double → β → Prop} {s : Sampling α}

theorem mono {P' : List Double → α → Prop} (h : s.Ensures P) (hP : ∀ xs a, P xs a → P' xs a) :
    s.Ensures P' := by
  induction s generalizing P P' with
  | done a => exact hP [] a h
  | fail e => exact h
  | note v s ih => exact ih h hP
  | ask x next ih =>
    intro y
    have hy := h y
    cases hp : finitePoint Continuous.procedure x y with
    | error e =>
      rw [hp] at hy
      exact hy
    | ok p =>
      rw [hp] at hy
      exact ih y hy fun xs a => hP (x :: xs) a

theorem bind {k : α → Sampling β} (h : s.Ensures P)
    (hk : ∀ xs a, P xs a → (k a).Ensures fun ys b => Q (xs ++ ys) b) : (s >>= k).Ensures Q := by
  induction s generalizing P Q with
  | done a => exact hk [] a h
  | fail e => exact h
  | note v s ih => exact ih h hk
  | ask x next ih =>
    intro y
    have hy := h y
    cases hp : finitePoint Continuous.procedure x y with
    | error e =>
      rw [hp] at hy
      show (next y >>= k) = .fail e
      rw [hy]
      rfl
    | ok p =>
      rw [hp] at hy
      exact ih y hy fun xs a ha => hk (x :: xs) a ha

theorem record (v : Event) : (Sampling.record v).Ensures fun xs _ => xs = [] := rfl

/-- elements that are found one after the other, each with its own questions -/
theorem mapM {find : β → Sampling α} {q : β → List Double} {R : β → α → Prop}
    (h : ∀ b, (find b).Ensures fun xs a => xs = q b ∧ R b a) (bs : List β) :
    (bs.mapM find).Ensures fun xs as => xs = bs.flatMap q ∧ List.Forall₂ R bs as := by
  induction bs with
  | nil => exact ⟨rfl, .nil⟩
  | cons b bs ih =>
    rw [List.mapM_cons]
    refine (h b).bind fun xs a ha => ih.bind fun ys as has => ?_
    refine ⟨?_, .cons ha.2 has.2⟩
    rw [ha.1, has.1, List.append_nil, List.flatMap_cons]

/-! ### Their runs -/

/-- a question is the last one, or its answer gives a point and the run goes on -/
theorem ask_cases {x : Double} {next : Double → Sampling α}
    (h : (Sampling.ask x next).Ensures P) (f : List Double → Double → Except EvalError Double)
    (earlier : List Double) :
    (∃ e, pointOf x (f earlier x) = .error e ∧
      ((Sampling.ask x next).answerAfter f earlier).outcome = .error e ∧
      ((Sampling.ask x next).answerAfter f earlier).asked = [x]) ∨
    ∃ y p, pointOf x (f earlier x) = .ok p ∧ ((next y).Ensures fun xs a => P (x :: xs) a) ∧
      ((Sampling.ask x next).answerAfter f earlier).outcome =
        ((next y).answerAfter f (earlier ++ [x])).outcome ∧
      ((Sampling.ask x next).answerAfter f earlier).asked =
        x :: ((next y).answerAfter f (earlier ++ [x])).asked := by
  simp only [answerAfter]
  cases hx : f earlier x with
  | error e => exact .inl ⟨e, rfl, rfl, rfl⟩
  | ok y =>
    have hy := h y
    cases hp : finitePoint Continuous.procedure x y with
    | error e =>
      rw [hp] at hy
      refine .inl ⟨e, hp, ?_, ?_⟩ <;> simp only [hy, answerAfter]
    | ok p =>
      rw [hp] at hy
      exact .inr ⟨y, p, hp, hy, rfl, rfl⟩

theorem result (h : s.Ensures P) {a : α} (ha : (s.answerAfter f earlier).outcome = .ok a) :
    P (s.answerAfter f earlier).asked a := by
  induction s generalizing P earlier with
  | done b =>
    cases ha
    exact h
  | fail e => cases ha
  | note v s ih => exact ih h ha
  | ask x next ih =>
    obtain ⟨e, _, hout, _⟩ | ⟨y, p, _, hnext, hout, hasked⟩ := h.ask_cases f earlier
    · rw [hout] at ha
      cases ha
    · rw [hout] at ha
      rw [hasked]
      exact ih y hnext ha

/-- a question whose answer gives no point is the last one -/
theorem fault (h : s.Ensures P) {i : Nat} {x : Double} {e : EvalError}
    (hx : (s.answerAfter f earlier).asked[i]? = some x)
    (he : pointOf x (f (earlier ++ (s.answerAfter f earlier).asked.take i) x) = .error e) :
    (s.answerAfter f earlier).asked.length = i + 1 ∧
      (s.answerAfter f earlier).outcome = .error e := by
  induction s generalizing P earlier i with
  | done b => cases hx
  | fail e => cases hx
  | note v s ih => exact ih h hx he
  | ask z next ih =>
    obtain ⟨e', hz, hout, hasked⟩ | ⟨y, p, hz, hnext, hout, hasked⟩ := h.ask_cases f earlier
    · rw [hasked] at hx he ⊢
      rw [hout]
      cases i with
      | zero =>
        cases hx
        rw [List.take_zero, List.append_nil, hz] at he
        cases he
        exact ⟨rfl, rfl⟩
      | succ i => cases hx
    · rw [hasked] at hx he ⊢
      rw [hout]
      cases i with
      | zero =>
        cases hx
        rw [List.take_zero, List.append_nil, hz] at he
        cases he
      | succ i =>
        rw [List.getElem?_cons_succ] at hx
        rw [List.take_succ_cons, List.append_cons] at he
        obtain ⟨hlast, hout'⟩ := ih y hnext hx he
        exact ⟨by rw [List.length_cons, hlast], hout'⟩

/-- a run fails with such an answer only -/
theorem error (h : s.Ensures P) {e : EvalError}
    (he : (s.answerAfter f earlier).outcome = .error e) :
    ∃ i x, (s.answerAfter f earlier).asked[i]? = some x ∧
      pointOf x (f (earlier ++ (s.answerAfter f earlier).asked.take i) x) = .error e := by
  induction s generalizing P earlier with
  | done b => cases he
  | fail e => exact h.elim
  | note v s ih => exact ih h he
  | ask z next ih =>
    obtain ⟨e', hz, hout, hasked⟩ | ⟨y, p, hz, hnext, hout, hasked⟩ := h.ask_cases f earlier
    · rw [hout] at he
      cases he
      refine ⟨0, z, by rw [hasked]; rfl, ?_⟩
      rw [List.take_zero, List.append_nil]
      exact hz
    · rw [hout] at he
      obtain ⟨i, x, hx, hpoint⟩ := ih y hnext he
      refine ⟨i + 1, x, ?_, ?_⟩
      · rw [hasked, List.getElem?_cons_succ]
        exact hx
      · rw [hasked, List.take_succ_cons, List.append_cons]
        exact hpoint

end Ensures

/-! ## Every question -/

/-- Whatever the answers are, every question is as `P` says, and the result, if there is one, as `Q`
says. -/
def Asks (P : Double → Prop) (Q : α → Prop) : Sampling α → Prop
  | .done a => Q a
  | .fail _ => True
  | .note _ s => s.Asks P Q
  | .ask x next => P x ∧ ∀ y, (next y).Asks P Q

namespace Asks

variable {P : Double → Prop} {Q : α → Prop} {s : Sampling α}

theorem mono {Q' : α → Prop} (h : s.Asks P Q) (hQ : ∀ a, Q a → Q' a) : s.Asks P Q' := by
  induction s with
  | done a => exact hQ a h
  | fail e => exact trivial
  | note v s ih => exact ih h
  | ask x next ih => exact ⟨h.1, fun y => ih y (h.2 y)⟩

theorem bind {R : β → Prop} {k : α → Sampling β} (h : s.Asks P Q)
    (hk : ∀ a, Q a → (k a).Asks P R) : (s >>= k).Asks P R := by
  induction s with
  | done a => exact hk a h
  | fail e => exact trivial
  | note v s ih => exact ih h
  | ask x next ih => exact ⟨h.1, fun y => ih y (h.2 y)⟩

theorem mapM {find : β → Sampling α} {R : β → α → Prop} {bs : List β}
    (h : ∀ b ∈ bs, (find b).Asks P (R b)) : (bs.mapM find).Asks P (List.Forall₂ R bs) := by
  induction bs with
  | nil => exact .nil
  | cons b bs ih =>
    rw [List.mapM_cons]
    refine (h b List.mem_cons_self).bind fun a ha => ?_
    exact (ih fun c hc => h c (List.mem_cons_of_mem b hc)).bind fun as has => .cons ha has

theorem asked (h : s.Asks P Q) (f : List Double → Double → Except EvalError Double)
    (earlier : List Double) : ∀ x ∈ (s.answerAfter f earlier).asked, P x := by
  induction s generalizing earlier with
  | done a => exact fun x hx => nomatch hx
  | fail e => exact fun x hx => nomatch hx
  | note v s ih => exact ih h earlier
  | ask z next ih =>
    simp only [answerAfter]
    cases f earlier z with
    | error e => exact List.forall_mem_singleton.mpr h.1
    | ok y => exact List.forall_mem_cons.mpr ⟨h.1, ih y (h.2 y) (earlier ++ [z])⟩

end Asks

end ChartLisp.Plot.Sampling
