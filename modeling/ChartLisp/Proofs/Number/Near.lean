import ChartLisp.Number.Near
import ChartLisp.Proofs.Number.Magnitude

/-!
# Numbers up to the tolerance

* `abs_le_iff`       a number without its sign and a bound, by their places
* `isFinite_of_sub`  a finite difference is one of finite numbers
* `near_iff`         near numbers are finite, and their rounded difference is within the tolerance
* `near_comm`        the order of the two does not matter
* `near_self_iff`    the numbers that are near themselves are the finite ones
-/

namespace ChartLisp.Number

open Float.Model (UnpackedFloat)

variable {x y z t : Float}

theorem abs_orderKey (z : Float) : |orderKey z| = magnitudeBits z := by
  rw [orderKey_eq]
  split
  · rw [abs_neg, Nat.abs_cast]
  · rw [Nat.abs_cast]

/-- a number that is at most a finite one without its sign is finite -/
theorem isFinite_of_abs_le (ht : t.isFinite = true) (h : z.abs ≤ t) : z.isFinite = true := by
  have hnan := (notNaN_of_le h).1
  replace h : packed z.toModel.unpack.abs ≤ t := h
  replace hnan : (packed z.toModel.unpack.abs).isNaN = false := hnan
  have hunpacked := unpacked z
  generalize z.toModel.unpack = u at hunpacked h hnan
  cases hunpacked with
  | nan _ =>
    have hpacked : (packed UnpackedFloat.notANumber).isNaN = true := by decide
    exact absurd hpacked (Bool.eq_false_iff.mp hnan)
  | infinity _ => exact absurd h (not_infinity_le ht)
  | zero hz _ => exact hz
  | finite hz _ => exact hz

theorem abs_le_iff (hz : z.isNaN = false) (ht : t.isFinite = true) :
    z.abs ≤ t ↔ |orderKey z| ≤ orderKey t := by
  rw [abs_orderKey]
  by_cases hfinite : z.isFinite = true
  · rw [le_iff_orderKey (nearest_abs hfinite).notNaN (isNaN_eq_false ht), orderKey_abs hfinite]
  · refine ⟨fun h => absurd (isFinite_of_abs_le ht h) hfinite, fun h => ?_⟩
    have hbound := ((isFinite_iff_orderKey (isNaN_eq_false ht)).mp ht).2
    have hkey := abs_orderKey z
    refine absurd ((isFinite_iff_orderKey hz).mpr (abs_lt.mp ?_)) hfinite
    omega

theorem isFinite_of_sub (h : (x - y).isFinite = true) : x.isFinite = true ∧ y.isFinite = true := by
  have hsub {u v : UnpackedFloat} (huv : ¬ (u.isFinite = true ∧ v.isFinite = true)) :
      (UnpackedFloat.sub .binary64 u v).isFinite = false := by
    cases u with
    | notANumber => cases v <;> rfl
    | infinity s =>
      cases v with
      | infinity t =>
        simp only [UnpackedFloat.sub]
        split <;> rfl
      | notANumber => rfl
      | zero t => rfl
      | finite t m e hm => rfl
    | zero s =>
      cases v with
      | infinity t => rfl
      | notANumber => rfl
      | zero t => exact absurd ⟨rfl, rfl⟩ huv
      | finite t m e hm => exact absurd ⟨rfl, rfl⟩ huv
    | finite s m e hm =>
      cases v with
      | infinity t => rfl
      | notANumber => rfl
      | zero t => exact absurd ⟨rfl, rfl⟩ huv
      | finite t m e hm => exact absurd ⟨rfl, rfl⟩ huv
  by_contra hxy
  exact Bool.eq_false_iff.mp (isFinite_packed (hsub hxy)) h

/-! ## Near numbers -/

theorem isFinite_tolerance : tolerance.isFinite = true := by decide

theorem near_iff : near x y = true ↔ x.isFinite = true ∧ y.isFinite = true ∧
    |nearestKey (value x - value y)| ≤ orderKey tolerance := by
  unfold near
  rw [decide_eq_true_eq]
  constructor
  · intro h
    obtain ⟨hx, hy⟩ := isFinite_of_sub (isFinite_of_abs_le isFinite_tolerance h)
    have hdiff := nearest_sub hx hy
    rw [abs_le_iff hdiff.notNaN isFinite_tolerance, hdiff.key] at h
    exact ⟨hx, hy, h⟩
  · rintro ⟨hx, hy, h⟩
    have hdiff := nearest_sub hx hy
    rw [abs_le_iff hdiff.notNaN isFinite_tolerance, hdiff.key]
    exact h

theorem near_comm (x y : Float) : near x y = near y x := by
  have hkey : |nearestKey (value x - value y)| = |nearestKey (value y - value x)| := by
    rw [← neg_sub, nearestKey_neg, abs_neg]
  rw [Bool.eq_iff_iff, near_iff, near_iff, hkey, and_left_comm]

theorem near_self_iff : near x x = true ↔ x.isFinite = true := by
  rw [near_iff, sub_self, nearestKey_zero]
  refine ⟨fun h => h.1, fun h => ⟨h, h, ?_⟩⟩
  decide

end ChartLisp.Number
