import ChartLisp.Builtin.Lists
import ChartLisp.Proofs.Arguments
import ChartLisp.Proofs.Number.Magnitude

/-!
# Ranges end

A range goes on by rounded additions.  A sum with a positive number is never below the number it was
added to, so a step either moves to a later place among the doubles or stays where it is, and the
second is noticed.

* `Number.le_add_pos`       a sum with a positive number, infinite or not, is not less
* `Lists.orderKey_lt_add`   a step that moves goes to a later place
* `Lists.Loop`              the rounds of a range, as many as it takes
* `Lists.iterate_loop`      the bound on the rounds is never met, so the loop ends
* `Lists.Loop.outcome`      what the rounds come to
* `Lists.range_iterates`    the values of a range, or the value it cannot leave
-/

namespace ChartLisp

/-! ## Adding a positive number -/

namespace Number

variable {x y : Float}

theorem le_add_pos (hx : x.isFinite = true) (hy : 0 < y) : x ≤ x + y := by
  by_cases hfinite : y.isFinite = true
  · have hpos := value_pos_of_lt hfinite hy
    exact (nearest_add hx hfinite).le_of_le hx (by linarith)
  · have hnan := (notNaN_of_le (le_of_lt_float hy)).2
    have hinf : y.isInf = true := by
      by_contra hinf
      exact hfinite (isFinite_of_eq_false hnan (Bool.eq_false_of_not_eq_true hinf))
    rw [add_infinity hx hy hinf]
    exact le_infinity hx

end Number

namespace Lists

/-! ## One step -/

variable {start stop step v : Double} {seen : List Double}
  {out : Except ArgumentFault (List Double)}

theorem add_notNaN (hv : v.isFinite = true) (hstep : 0 < step) :
    (v + step).float.isNaN = false := (Number.notNaN_of_le (Number.le_add_pos hv hstep)).2

/-- a step from a finite number goes to a later place unless it stays where it is -/
theorem orderKey_lt_add (hv : v.isFinite = true) (hstep : 0 < step) (hmoves : ¬ v + step == v) :
    v.orderKey < (v + step).orderKey := by
  have hnan := Number.isNaN_eq_false hv
  have hnan' := add_notNaN hv hstep
  have hle : v.orderKey ≤ (v + step).orderKey :=
    (Number.le_iff_orderKey hnan hnan').mp (Number.le_add_pos hv hstep)
  have hne : (v + step).orderKey ≠ v.orderKey := fun h =>
    hmoves ((Number.beq_iff_orderKey hnan' hnan).mpr h)
  omega

theorem isFinite_of_le_stop (hstart : start.isFinite = true) (hstop : stop.isFinite = true)
    (hlo : start ≤ v) (hhi : v ≤ stop) : v.isFinite = true :=
  Number.isFinite_of_between hstart hstop (Number.notNaN_of_le hlo).2 hlo hhi

/-! ## The rounds -/

/-- The rounds of a range from `v` on, `seen` being the values before, the last one first.  There is
no bound on their number, so `out` is the outcome of a loop that ends. -/
inductive Loop (stop step : Double) :
    Double → List Double → Except ArgumentFault (List Double) → Prop where
  | past {v : Double} {seen : List Double} (hv : ¬ v ≤ stop) :
      Loop stop step v seen (.ok seen.reverse)
  | stuck {v : Double} {seen : List Double} (hv : v ≤ stop) (hstuck : v + step == v) :
      Loop stop step v seen (.error (.stepTooSmall step v))
  | next {v : Double} {seen : List Double} {out : Except ArgumentFault (List Double)}
      (hv : v ≤ stop) (hmoves : ¬ v + step == v)
      (hrest : Loop stop step (v + step) (v :: seen) out) : Loop stop step v seen out

/-- as many rounds as there are doubles up to `stop` are enough, whatever the bound on them is -/
theorem iterate_loop (hstart : start.isFinite = true) (hstop : stop.isFinite = true)
    (hstep : 0 < step) (fuel : Nat) (hv : start ≤ v) (hfuel : stop.orderKey < v.orderKey + fuel) :
    Loop stop step v seen (iterate stop step fuel v seen) := by
  have hnan := (Number.notNaN_of_le hv).2
  induction fuel generalizing v seen with
  | zero =>
    refine .past fun hle => ?_
    have hkey : v.orderKey ≤ stop.orderKey :=
      (Number.le_iff_orderKey hnan (Number.isNaN_eq_false hstop)).mp hle
    omega
  | succ fuel ih =>
    rw [iterate]
    split
    · rename_i hle
      have hfinite := isFinite_of_le_stop hstart hstop hv hle
      split
      · rename_i hstuck
        exact .stuck hle hstuck
      · rename_i hmoves
        have hlater := orderKey_lt_add hfinite hstep hmoves
        have hnext : start ≤ v + step := Number.float_le_trans hv (Number.le_add_pos hfinite hstep)
        exact .next hle hmoves (ih hnext (by push_cast at hfuel; omega) (add_notNaN hfinite hstep))
    · rename_i hpast
      exact .past hpast

theorem values_loop (hstart : start.isFinite = true) (hstop : stop.isFinite = true)
    (hle : start ≤ stop) (hstep : 0 < step) :
    Loop stop step start [] (values start stop step) := by
  have hnan := Number.isNaN_eq_false hstart
  have hnan' := Number.isNaN_eq_false hstop
  have hkey : start.orderKey ≤ stop.orderKey := (Number.le_iff_orderKey hnan hnan').mp hle
  have hordered : ¬ stop < start := fun h => by
    have : stop.orderKey < start.orderKey := (Number.lt_iff_orderKey hnan' hnan).mp h
    omega
  have hpositive := Number.orderKey_pos hstep
  have hnumber := (Number.notNaN_of_le (Number.le_of_lt_float hstep)).2
  have hstep' : ¬ step ≤ 0 := fun h => by
    have : step.orderKey ≤ 0 :=
      (Number.le_iff_orderKey hnumber (Number.isNaN_eq_false Number.isFinite_zero)).mp h
    exact absurd this (not_le.mpr hpositive)
  unfold values
  rw [hstart, hstop, if_neg (by decide), if_neg hordered,
    if_neg (by rw [decide_eq_false hstep', Double.isNaN, hnumber]; decide)]
  exact iterate_loop hstart hstop hstep _ ((Number.le_iff_orderKey hnan hnan).mpr le_rfl) (by omega)

/-! ## The values -/

/-- `start`, `start + step`, `start + step + step` and so on, rounded after each addition -/
def term (start step : Double) : Nat → Double
  | 0 => start
  | n + 1 => term start step n + step

/-- the rounds before the `n`-th are passed: their values are not past the end, and the step leads
away from them -/
def Reaches (start stop step : Double) (n : Nat) : Prop :=
  ∀ i < n, term start step i ≤ stop ∧ ¬ term start step i + step == term start step i

variable {n : Nat}

theorem Reaches.le_stop (h : Reaches start stop step n) {i : Nat} (hi : i < n) :
    term start step i ≤ stop := (h i hi).1

theorem Reaches.succ (h : Reaches start stop step n) (hle : term start step n ≤ stop)
    (hmoves : ¬ term start step n + step == term start step n) :
    Reaches start stop step (n + 1) := by
  intro i hi
  obtain hi | rfl := Nat.lt_succ_iff_lt_or_eq.mp hi
  · exact h i hi
  · exact ⟨hle, hmoves⟩

theorem Loop.outcome (h : Loop stop step v seen out) (hreached : Reaches start stop step n)
    (hv : v = term start step n) (hseen : seen = ((List.range n).map (term start step)).reverse) :
    ∃ m, Reaches start stop step m ∧
      (¬ term start step m ≤ stop ∧ out = .ok ((List.range m).map (term start step)) ∨
        term start step m ≤ stop ∧ term start step m + step == term start step m ∧
          out = .error (.stepTooSmall step (term start step m))) := by
  induction h generalizing n with
  | past hpast =>
    subst hv hseen
    exact ⟨n, hreached, .inl ⟨hpast, by rw [List.reverse_reverse]⟩⟩
  | stuck hle hstuck =>
    subst hv
    exact ⟨n, hreached, .inr ⟨hle, hstuck, rfl⟩⟩
  | next hle hmoves _ ih =>
    subst hv hseen
    refine ih (hreached.succ hle hmoves) rfl ?_
    rw [List.range_succ, List.map_append, List.reverse_append]
    rfl

theorem Reaches.start_le (hstart : start.isFinite = true) (hstop : stop.isFinite = true)
    (hstep : 0 < step) (h : Reaches start stop step n) : start ≤ term start step n := by
  induction n with
  | zero =>
    have hnan := Number.isNaN_eq_false hstart
    exact (Number.le_iff_orderKey hnan hnan).mpr le_rfl
  | succ n ih =>
    have hlo := ih fun i hi => h i (Nat.lt_succ_of_lt hi)
    have hfinite := isFinite_of_le_stop hstart hstop hlo (h.le_stop (Nat.lt_succ_self n))
    exact Number.float_le_trans hlo (Number.le_add_pos hfinite hstep)

/-- every round that is passed leads to a greater value -/
theorem Reaches.increasing (hstart : start.isFinite = true) (hstop : stop.isFinite = true)
    (hstep : 0 < step) (h : Reaches start stop step n) {i j : Nat} (hij : i < j) (hj : j ≤ n) :
    term start step i < term start step j := by
  have hfinite (k : Nat) (hk : k < n) : (term start step k).isFinite = true :=
    isFinite_of_le_stop hstart hstop
      (Reaches.start_le hstart hstop hstep fun i hi => h i (hi.trans hk)) (h.le_stop hk)
  have hkey : (term start step i).orderKey < (term start step j).orderKey := by
    induction j with
    | zero => omega
    | succ j ih =>
      have hmove := orderKey_lt_add (hfinite j hj) hstep (h j hj).2
      obtain hij | rfl := Nat.lt_succ_iff_lt_or_eq.mp hij
      · exact (ih hij (by omega)).trans hmove
      · exact hmove
  obtain ⟨j, rfl⟩ := Nat.exists_eq_succ_of_ne_zero (Nat.ne_zero_of_lt hij)
  have hnan := Number.isNaN_eq_false (hfinite i (by omega))
  exact (Number.lt_iff_orderKey hnan (add_notNaN (hfinite j (by omega)) hstep)).mpr hkey

/-! ## The procedure -/

variable {a b c : Expr}

theorem range_eq (ha : a.LeafOf (.number start)) (hb : b.LeafOf (.number stop))
    (hc : c.LeafOf (.number step)) :
    range [a, b, c] =
      ((values start stop step).map fun xs => Expr.list (xs.map Expr.number)).mapError
        (.unusable "range") := by
  have hcount : Argument.requireCount "range" 3 [a, b, c] = .ok () := rfl
  have hfirst : Argument.nth [a, b, c] 0 = .ok a := rfl
  have hsecond : Argument.nth [a, b, c] 1 = .ok b := rfl
  have hthird : Argument.nth [a, b, c] 2 = .ok c := rfl
  simp only [range, hcount, hfirst, hsecond, hthird, Argument.number_eq_ok.mpr ha,
    Argument.number_eq_ok.mpr hb, Argument.number_eq_ok.mpr hc, bind, Except.bind]
  cases values start stop step <;> rfl

/-- The rounds of a range between finite bounds with a positive step, which may be tiny or infinite,
come to an end.  Unless a round before the end is stuck, the values are those that are not past the
end, and each is greater than the one before; otherwise the range fails with the value of the first
round that is stuck. -/
theorem range_iterates (ha : a.LeafOf (.number start)) (hb : b.LeafOf (.number stop))
    (hc : c.LeafOf (.number step)) (hstart : start.isFinite = true) (hstop : stop.isFinite = true)
    (hle : start ≤ stop) (hstep : 0 < step) :
    Loop stop step start [] (values start stop step) ∧
      ((∀ n, Reaches start stop step n → term start step n ≤ stop →
          ¬ term start step n + step == term start step n) →
        ∃ n, range [a, b, c] =
            .ok (Expr.list ((List.range (n + 1)).map fun i => Expr.number (term start step i))) ∧
          (∀ i ≤ n, term start step i ≤ stop) ∧ ¬ term start step n + step ≤ stop ∧
          ∀ i j, i < j → j ≤ n → term start step i < term start step j) ∧
      ∀ n, Reaches start stop step n → term start step n ≤ stop →
        term start step n + step == term start step n →
          range [a, b, c] =
            .error (.unusable "range" (.stepTooSmall step (term start step n))) := by
  have hloop := values_loop hstart hstop hle hstep
  obtain ⟨m, hm, hout⟩ := hloop.outcome (n := 0) (fun i hi => nomatch hi) rfl rfl
  rw [range_eq ha hb hc]
  refine ⟨hloop, fun hmoves => ?_, fun n hn hend hstuck => ?_⟩
  · obtain ⟨hpast, hvalues⟩ | ⟨hend, hstuck, -⟩ := hout
    · cases m with
      | zero => exact absurd hle hpast
      | succ n =>
        refine ⟨n, ?_, fun i hi => hm.le_stop (Nat.lt_succ_of_le hi), hpast,
          fun i j hij hj => hm.increasing hstart hstop hstep hij (Nat.le_succ_of_le hj)⟩
        rw [hvalues, Except.map, List.map_map]
        rfl
    · exact absurd hstuck (hmoves m hm hend)
  · -- a later round would have passed this one, and an earlier one would not have ended the loop
    have hmn : ¬ n < m := fun h => (hm n h).2 hstuck
    have hnm : ¬ m < n := fun h => by
      obtain ⟨hend', hmoves⟩ := hn m h
      exact hout.elim (fun h => h.1 hend') fun h => hmoves h.2.1
    obtain rfl : n = m := by omega
    obtain ⟨hpast, -⟩ | ⟨-, -, hvalues⟩ := hout
    · exact absurd hend hpast
    · rw [hvalues]
      rfl

/-- from `2 ^ 53` on, where doubles are two apart, a step of one is lost -/
theorem range_stuck_second :
    Loop 9007199254740996 1 9007199254740991 [] (values 9007199254740991 9007199254740996 1) ∧
      range [Expr.number 9007199254740991, Expr.number 9007199254740996, Expr.number 1] =
        .error (.unusable "range" (.stepTooSmall 1 9007199254740992)) := by
  obtain ⟨hloop, -, hstuck⟩ := range_iterates (Expr.leafOf_leaf (.number 9007199254740991))
    (Expr.leafOf_leaf (.number 9007199254740996)) (Expr.leafOf_leaf (.number 1))
    (by decide +kernel) (by decide +kernel) (by decide +kernel) (by decide +kernel)
  have hterm : term 9007199254740991 1 1 = 9007199254740992 := by decide +kernel
  have hfirst : Reaches 9007199254740991 9007199254740996 1 1 := by
    unfold Reaches
    decide +kernel
  refine ⟨hloop, ?_⟩
  rw [← hterm]
  exact hstuck 1 hfirst (by decide +kernel) (by decide +kernel)

end Lists

end ChartLisp
