import ChartLisp.Proofs.Plot.Sampling
import Mathlib.Data.List.FinRange
import Mathlib.Data.List.Pairwise
import Mathlib.Data.List.Sort

/-!
# One refining pass

A pass visits the triples at the positions `0, 2, 4, …` that fit into its points.  Which points it
keeps, and where it samples, is settled before any sample is taken: `layout` lists it by position.

* `Slot`              a place of the refined polyline: a point that is kept, or a sample
* `tripleCount`, `corner`   the triples by number and their positions
* `bentAt`, `bentCount`     the bent ones
* `layout`            what each triple contributes, and the points after the last triple
* `refine_eq_mapM`    a pass fills the slots of its layout one after the other
* `length_layout`, `kept_pairwise`, `kept_of_even_or_last`, `kept_middle_iff`   the layout by count
                      and by position
* `refine_pass`       all of this, with the points of a pass whose samples succeed
-/

namespace ChartLisp.Plot

/-- a place of a refined polyline: a point that was there before, or a sample at `x` -/
inductive Slot (ι : Type) where
  | kept (i : ι)
  | sampled (x : Double)

namespace Slot

variable {ι κ : Type}

def map (g : ι → κ) : Slot ι → Slot κ
  | .kept i => .kept (g i)
  | .sampled x => .sampled x

/-- the point of a place; only a sample has to be asked for -/
def fill (sample : Double → Sampling Point) (get : ι → Point) : Slot ι → Sampling Point
  | .kept i => pure (get i)
  | .sampled x => sample x

def position? : Slot ι → Option ι
  | .kept i => some i
  | .sampled _ => none

/-- where a place asks for a value -/
def questions : Slot ι → List Double
  | .kept _ => []
  | .sampled x => [x]

/-- the places from the point `a` to the end of the triple `a b c`, the samples being at `x` between
`a` and `b` and at `y` between `b` and `c` -/
def block (bent : Bool) (a b : ι) (x y : Double) : List (Slot ι) :=
  if bent then [.kept a, .sampled x, .kept b, .sampled y] else [.kept a]

theorem map_block (g : ι → κ) (bent : Bool) (a b : ι) (x y : Double) :
    (block bent a b x y).map (map g) = block bent (g a) (g b) x y := by
  cases bent <;> rfl

theorem length_block (bent : Bool) (a b : ι) (x y : Double) :
    (block bent a b x y).length = 1 + 3 * bent.toNat := by
  cases bent <;> rfl

theorem fill_map (sample : Double → Sampling Point) (g : ι → κ) (get : κ → Point) (slot : Slot ι) :
    fill sample get (slot.map g) = fill sample (get ∘ g) slot := by
  cases slot <;> rfl

end Slot

/-! ## The slots of a polyline, triple by triple -/

variable (bent : Point → Point → Point → Bool)

def slots : List Point → List (Slot Point)
  | a :: b :: c :: rest =>
    Slot.block (bent a b c) a b (Double.midpoint a.x b.x) (Double.midpoint b.x c.x) ++
      slots (c :: rest)
  | rest => rest.map .kept

theorem mapM_kept (sample : Double → Sampling Point) (ps : List Point) :
    (ps.map Slot.kept).mapM (Slot.fill sample id) = pure ps := by
  induction ps with
  | nil => rfl
  | cons p ps ih =>
    rw [List.map_cons, List.mapM_cons, ih]
    rfl

theorem refine_eq_slots (sample : Double → Sampling Point) (ps : List Point) :
    refine bent sample ps = (slots bent ps).mapM (Slot.fill sample id) := by
  fun_induction slots bent ps with
  | case1 a b c rest ih =>
    rw [refine, ih]
    cases bent a b c <;> simp [Slot.block, Slot.fill]
  | case2 ps hshort =>
    rw [refine, mapM_kept]
    exact hshort

/-! ## Triples by number -/

/-- how many triples at the positions `0, 2, 4, …` fit into `n` points -/
def tripleCount (n : Nat) : Nat := if n < 3 then 0 else (n - 1) / 2

theorem tripleCount_add_two (n : Nat) : tripleCount (n + 3) = tripleCount (n + 1) + 1 := by
  unfold tripleCount
  split <;> split <;> omega

theorem corner_lt {n j : Nat} (h : j < tripleCount n) : 2 * j + 2 < n := by
  unfold tripleCount at h
  split at h <;> omega

theorem two_mul_tripleCount_lt {n : Nat} (h : 0 < n) : 2 * tripleCount n < n := by
  unfold tripleCount
  split <;> omega

variable (ps : List Point)

/-- the position of a point of the `j`th triple -/
def corner (j : Fin (tripleCount ps.length)) (r : Fin 3) : Fin ps.length :=
  ⟨2 * j + r, by have := corner_lt j.isLt; omega⟩

def bentAt (j : Fin (tripleCount ps.length)) : Bool :=
  bent (ps.get (corner ps j 0)) (ps.get (corner ps j 1)) (ps.get (corner ps j 2))

def bentCount : Nat := (List.finRange (tripleCount ps.length)).countP (bentAt bent ps)

def blockAt (j : Fin (tripleCount ps.length)) : List (Slot (Fin ps.length)) :=
  Slot.block (bentAt bent ps j) (corner ps j 0) (corner ps j 1)
    (Double.midpoint (ps.get (corner ps j 0)).x (ps.get (corner ps j 1)).x)
    (Double.midpoint (ps.get (corner ps j 1)).x (ps.get (corner ps j 2)).x)

/-- The refined polyline by position: a bent triple contributes its first two points, each followed
by a sample in the middle of the side that begins there, a straight one its first point; the points
from the last triple's end on are kept. -/
def layout : List (Slot (Fin ps.length)) :=
  (List.finRange (tripleCount ps.length)).flatMap (blockAt bent ps) ++
    ((List.finRange ps.length).drop (2 * tripleCount ps.length)).map .kept

/-! ## The layout is what a pass fills -/

/-- what the triple that a list begins with contributes -/
def headBlock : List Point → List (Slot Point)
  | a :: b :: c :: _ =>
    Slot.block (bent a b c) a b (Double.midpoint a.x b.x) (Double.midpoint b.x c.x)
  | _ => []

theorem slots_eq_range :
    slots bent ps =
      (List.range (tripleCount ps.length)).flatMap (fun j => headBlock bent (ps.drop (2 * j))) ++
        (ps.drop (2 * tripleCount ps.length)).map .kept := by
  fun_induction slots bent ps with
  | case1 a b c rest ih =>
    have hlen : tripleCount (a :: b :: c :: rest).length = tripleCount (c :: rest).length + 1 :=
      tripleCount_add_two rest.length
    have hdrop (j : Nat) : (a :: b :: c :: rest).drop (2 * (j + 1)) = (c :: rest).drop (2 * j) := by
      rw [show 2 * (j + 1) = 2 * j + 1 + 1 by omega, List.drop_succ_cons, List.drop_succ_cons]
    rw [ih, hlen, List.range_succ_eq_map, List.flatMap_cons, List.flatMap_map, hdrop,
      ← List.append_assoc]
    simp only [hdrop]
    rfl
  | case2 ps hshort =>
    have hzero : tripleCount ps.length = 0 := by
      unfold tripleCount
      rw [if_pos]
      match ps with
      | [] | [_] | [_, _] => simp
      | _ :: _ :: _ :: _ => exact (hshort _ _ _ _ rfl).elim
    rw [hzero]
    rfl

theorem headBlock_drop (j : Fin (tripleCount ps.length)) :
    headBlock bent (ps.drop (2 * j)) = (blockAt bent ps j).map (Slot.map ps.get) := by
  have hlt := corner_lt j.isLt
  rw [List.drop_eq_getElem_cons (by omega), List.drop_eq_getElem_cons (by omega),
    List.drop_eq_getElem_cons (by omega), blockAt, Slot.map_block]
  rfl

theorem map_get_layout : (layout bent ps).map (Slot.map ps.get) = slots bent ps := by
  have hblocks : (List.range (tripleCount ps.length)).flatMap
      (fun j => headBlock bent (ps.drop (2 * j))) =
        (List.finRange (tripleCount ps.length)).flatMap
          (fun j => (blockAt bent ps j).map (Slot.map ps.get)) := by
    rw [← List.map_coe_finRange_eq_range, List.flatMap_map]
    simp only [headBlock_drop]
  have hrest : (ps.drop (2 * tripleCount ps.length)).map Slot.kept =
      (((List.finRange ps.length).drop (2 * tripleCount ps.length)).map Slot.kept).map
        (Slot.map ps.get) := by
    have hget : ((List.finRange ps.length).drop (2 * tripleCount ps.length)).map ps.get =
        ps.drop (2 * tripleCount ps.length) := by
      rw [List.map_drop, List.map_get_finRange]
    rw [← hget, List.map_map, List.map_map]
    rfl
  rw [slots_eq_range, layout, List.map_append, List.map_flatMap, hblocks, hrest]

theorem refine_eq_mapM (sample : Double → Sampling Point) :
    refine bent sample ps = (layout bent ps).mapM (Slot.fill sample ps.get) := by
  rw [refine_eq_slots, ← map_get_layout, List.mapM_map]
  congr 1
  funext slot
  exact Slot.fill_map sample ps.get id slot

/-! ## Counts and positions -/

theorem length_layout :
    (layout bent ps).length + tripleCount ps.length = ps.length + 3 * bentCount bent ps := by
  have hblocks (js : List (Fin (tripleCount ps.length))) :
      (js.flatMap (blockAt bent ps)).length = js.length + 3 * js.countP (bentAt bent ps) := by
    induction js with
    | nil => rfl
    | cons j js ih =>
      rw [List.flatMap_cons, List.length_append, ih, blockAt, Slot.length_block, List.length_cons,
        List.countP_cons]
      cases bentAt bent ps j <;> simp <;> omega
  have hle : 2 * tripleCount ps.length ≤ ps.length := by
    unfold tripleCount
    split <;> omega
  rw [layout, List.length_append, hblocks, List.length_map, List.length_drop, List.length_finRange,
    List.length_finRange, bentCount]
  omega

theorem bentCount_le : bentCount bent ps ≤ tripleCount ps.length := by
  have := List.countP_le_length (p := bentAt bent ps) (l := List.finRange (tripleCount ps.length))
  rwa [List.length_finRange] at this

theorem mem_drop_finRange {n m : Nat} (i : Fin n) : i ∈ (List.finRange n).drop m ↔ m ≤ i := by
  rw [List.mem_drop_iff_getElem]
  constructor
  · rintro ⟨k, hk, rfl⟩
    simp
  · intro hle
    refine ⟨i - m, ?_, ?_⟩
    · rw [List.length_finRange]
      omega
    · ext
      simp only [List.getElem_finRange, Fin.val_cast]
      omega

theorem kept_mem_blockAt (i : Fin ps.length) (j : Fin (tripleCount ps.length)) :
    Slot.kept i ∈ blockAt bent ps j ↔
      i = corner ps j 0 ∨ bentAt bent ps j = true ∧ i = corner ps j 1 := by
  unfold blockAt Slot.block
  cases bentAt bent ps j <;> simp

theorem kept_mem_layout (i : Fin ps.length) :
    Slot.kept i ∈ layout bent ps ↔
      (∃ j, i = corner ps j 0 ∨ bentAt bent ps j = true ∧ i = corner ps j 1) ∨
        2 * tripleCount ps.length ≤ i := by
  rw [layout, List.mem_append, List.mem_flatMap, List.mem_map]
  simp only [kept_mem_blockAt, List.mem_finRange, true_and, Slot.kept.injEq, exists_eq_right,
    mem_drop_finRange]

/-- the points at even positions and the last point are kept -/
theorem kept_of_even_or_last (i : Fin ps.length) (h : i.val % 2 = 0 ∨ i.val + 1 = ps.length) :
    Slot.kept i ∈ layout bent ps := by
  rw [kept_mem_layout]
  by_cases hlast : 2 * tripleCount ps.length ≤ i
  · exact .inr hlast
  · have heven : i.val % 2 = 0 := by
      have := two_mul_tripleCount_lt (n := ps.length) (by omega)
      unfold tripleCount at *
      omega
    refine .inl ⟨⟨i / 2, by omega⟩, .inl (Fin.ext ?_)⟩
    show i.val = 2 * (i / 2) + 0
    omega

/-- the middle of a triple is kept if the triple is bent, and dropped if it is straight -/
theorem kept_middle_iff (j : Fin (tripleCount ps.length)) :
    Slot.kept (corner ps j 1) ∈ layout bent ps ↔ bentAt bent ps j = true := by
  have hval (k : Fin (tripleCount ps.length)) (r : Fin 3) : (corner ps k r).val = 2 * k + r := rfl
  rw [kept_mem_layout]
  constructor
  · rintro (⟨k, hk | ⟨hbent, hk⟩⟩ | hrest)
    · have := congrArg Fin.val hk
      rw [hval, hval] at this
      simp only [Fin.val_zero, Fin.val_one] at this
      omega
    · have := congrArg Fin.val hk
      rw [hval, hval] at this
      have hjk : j = k := Fin.ext (by omega)
      rw [hjk]
      exact hbent
    · rw [hval] at hrest
      have := j.isLt
      simp only [Fin.val_one] at hrest
      omega
  · intro hbent
    exact .inl ⟨j, .inr ⟨hbent, rfl⟩⟩

theorem kept_pairwise : ((layout bent ps).filterMap Slot.position?).Pairwise (· < ·) := by
  have hblock (j : Fin (tripleCount ps.length)) (s : Slot (Fin ps.length))
      (hs : s ∈ blockAt bent ps j) (i : Fin ps.length) (hi : s.position? = some i) :
      2 * j.val ≤ i.val ∧ i.val ≤ 2 * j.val + 1 := by
    cases s with
    | sampled x => cases hi
    | kept k =>
      cases hi
      obtain rfl | ⟨-, rfl⟩ := (kept_mem_blockAt bent ps i j).mp hs <;> simp [corner]
  rw [List.pairwise_filterMap, layout, List.pairwise_append, List.pairwise_flatMap]
  refine ⟨⟨fun j _ => ?_, ?_⟩, ?_, ?_⟩
  · unfold blockAt Slot.block
    cases bentAt bent ps j <;> simp [Slot.position?, corner]
  · refine (List.pairwise_lt_finRange _).imp ?_
    intro j k hjk s hs t ht i hi i' hi'
    have := hblock j s hs i hi
    have := hblock k t ht i' hi'
    show i.val < i'.val
    have : j.val < k.val := hjk
    omega
  · rw [List.pairwise_map]
    refine ((List.pairwise_lt_finRange _).drop).imp ?_
    intro i k hik a ha b hb
    cases ha
    cases hb
    exact hik
  · intro s hs t ht i hi i' hi'
    obtain ⟨j, -, hj⟩ := List.mem_flatMap.mp hs
    obtain ⟨k, hk, rfl⟩ := List.mem_map.mp ht
    cases hi'
    have := hblock j s hj i hi
    have := (mem_drop_finRange i').mp hk
    have := j.isLt
    show i.val < i'.val
    omega

/-! ## The points of a pass -/

/-- the positions that every pass keeps: the even ones and the last -/
def fixedPositions : List (Fin ps.length) :=
  (List.finRange ps.length).filter fun i => i.val % 2 = 0 ∨ i.val + 1 = ps.length

theorem fixedPositions_sublist :
    (fixedPositions ps).Sublist ((layout bent ps).filterMap Slot.position?) := by
  have hfixed : (fixedPositions ps).Pairwise (· < ·) := (List.pairwise_lt_finRange _).filter _
  refine List.sublist_of_subperm_of_pairwise (List.subperm_of_subset ?_ ?_) hfixed
    (kept_pairwise bent ps)
  · exact hfixed.imp fun h => ne_of_lt h
  · intro i hi
    have hpos := (List.mem_filter.mp hi).2
    rw [decide_eq_true_eq] at hpos
    exact List.mem_filterMap.mpr ⟨_, kept_of_even_or_last bent ps i hpos, rfl⟩

namespace Slot

variable {ι : Type} {f : List Double → Double → Except EvalError Double}
  {sample : Double → Sampling Point} {get : ι → Point}

/-- `p` is the point of the place: the point that is kept, or a sample that was found -/
def Holds (f : List Double → Double → Except EvalError Double) (sample : Double → Sampling Point)
    (get : ι → Point) : Slot ι → Point → Prop
  | .kept i, p => p = get i
  | .sampled x, p => Sampling.Result f (sample x) p

theorem fill_answers (h : ∀ x, Sampling.Answers f (sample x)) (slot : Slot ι) :
    Sampling.Answers f (slot.fill sample get) := by
  cases slot with
  | kept i => exact fun _ => ⟨get i, rfl⟩
  | sampled x => exact h x

theorem Holds.of_result {slot : Slot ι} {p : Point}
    (h : Sampling.Result f (slot.fill sample get) p) : slot.Holds f sample get p := by
  cases slot with
  | kept i => exact h.done
  | sampled x => exact h

/-- the points that are kept stand among the points in their order -/
theorem map_position_sublist {slots : List (Slot ι)} {qs : List Point}
    (h : List.Forall₂ (Holds f sample get) slots qs) :
    ((slots.filterMap position?).map get).Sublist qs := by
  induction h with
  | nil => exact .refl []
  | @cons slot q slots qs hq _ ih =>
    cases slot with
    | kept i =>
      cases hq
      exact ih.cons_cons (get i)
    | sampled x => exact ih.cons q

end Slot

/-- One pass, for any test of triples and any way to sample.  The test is made at the `tripleCount`
triples only.  The pass fills the slots of its layout in order, so it samples in the middle of the
sides of the bent triples, from left to right, and nowhere else.  Positions are numbers below the
length.  Each straight triple loses its middle point and each bent one gains two; the points at even
positions and the last one stay, in order. -/
theorem refine_pass (sample : Double → Sampling Point) :
    (∀ bent', (∀ j, bentAt bent' ps j = bentAt bent ps j) →
      refine bent' sample ps = refine bent sample ps) ∧
    refine bent sample ps = (layout bent ps).mapM (Slot.fill sample ps.get) ∧
    (∀ j, Slot.kept (corner ps j 1) ∉ layout bent ps ↔ bentAt bent ps j = false) ∧
    ((layout bent ps).filterMap Slot.position?).Pairwise (· < ·) ∧
    ∀ f earlier, (∀ x, Sampling.Answers f (sample x)) →
      ∃ qs, ((refine bent sample ps).answerAfter f earlier).outcome = .ok qs ∧
        List.Forall₂ (Slot.Holds f sample ps.get) (layout bent ps) qs ∧
        qs.length = ps.length + 2 * bentCount bent ps -
          (tripleCount ps.length - bentCount bent ps) ∧
        ((fixedPositions ps).map ps.get).Sublist qs := by
  refine ⟨fun bent' h => ?_, refine_eq_mapM bent ps sample, fun j => ?_, kept_pairwise bent ps,
    fun f earlier hs => ?_⟩
  · have hblock : blockAt bent' ps = blockAt bent ps := by
      funext j
      unfold blockAt
      rw [h j]
    rw [refine_eq_mapM, refine_eq_mapM, layout, layout, hblock]
  · rw [kept_middle_iff, Bool.not_eq_true]
  · have hfill : ∀ slot ∈ layout bent ps, Sampling.Answers f (slot.fill sample ps.get) :=
      fun slot _ => Slot.fill_answers hs slot
    obtain ⟨qs, hout⟩ := Sampling.mapM_answers hfill earlier
    have hholds := (Sampling.mapM_ok hout).imp fun _ _ => Slot.Holds.of_result
    refine ⟨qs, ?_, hholds, ?_, ?_⟩
    · rw [refine_eq_mapM]
      exact hout
    · have hlayout := length_layout bent ps
      have hle := bentCount_le bent ps
      rw [← hholds.length_eq]
      omega
    · exact ((fixedPositions_sublist bent ps).map ps.get).trans (Slot.map_position_sublist hholds)

/-- of five points the first three are bent and the last three straight -/
theorem refine_pass_peak : ∃ qs,
    ((refine (fun a b _ => decide (a.y < b.y)) (fun x => .done ⟨x, 0⟩)
      [⟨0, 0⟩, ⟨1, 1⟩, ⟨2, 0⟩, ⟨3, 0⟩, ⟨4, 0⟩]).answerAfter (fun _ => .ok) []).outcome = .ok qs ∧
    qs.length = 6 := by
  obtain ⟨qs, hqs, -, hlength, -⟩ := (refine_pass (fun a b _ => decide (a.y < b.y))
    [⟨0, 0⟩, ⟨1, 1⟩, ⟨2, 0⟩, ⟨3, 0⟩, ⟨4, 0⟩] fun x => .done ⟨x, 0⟩).2.2.2.2 (fun _ => .ok) []
      fun x _ => ⟨_, rfl⟩
  refine ⟨qs, hqs, hlength.trans ?_⟩
  decide +kernel

end ChartLisp.Plot
