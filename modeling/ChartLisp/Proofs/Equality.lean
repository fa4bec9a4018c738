import ChartLisp.Builtin.Arithmetic
import ChartLisp.Proofs.Number.Near
import ChartLisp.Proofs.Reading

/-!
# Equality of expressions

Two expressions are equal if their trees have the same shape and the heads at each position are
equal, numbers up to the tolerance.  What else is known of equality follows from what is known of
atoms.

* `Expr.at?`            the node at a position
* `Expr.Matches`        nodes with equal heads and as many children
* `Expr.near_iff_at?`   equal expressions match at every position
* `Expr.near_self_iff_isFinite`   the expressions that are equal to themselves
* `Expr.near_laws`      equality is symmetric, exact in shape and texts, and blind to annotations
-/

namespace ChartLisp

/-! ## Atoms -/

namespace Atom

inductive Kind where
  | none
  | number
  | symbol
  | complex
  | string
deriving DecidableEq

def kind : Atom → Kind
  | .none => .none
  | .number _ => .number
  | .symbol _ => .symbol
  | .complex _ => .complex
  | .string _ => .string

/-- the numbers that an atom is made of -/
def numbers : Atom → List Double
  | .number x => [x]
  | .complex z => [z.re, z.im]
  | _ => []

theorem near_comm (a b : Atom) : a.near b = b.near a := by
  cases a with
  | none => cases b <;> rfl
  | number x =>
    cases b with
    | number y => exact Number.near_comm x.float y.float
    | _ => rfl
  | symbol s =>
    cases b with
    | symbol t => exact Bool.beq_comm
    | _ => rfl
  | complex z =>
    cases b with
    | complex w =>
      exact congrArg₂ (· && ·) (Number.near_comm z.re.float w.re.float)
        (Number.near_comm z.im.float w.im.float)
    | _ => rfl
  | string s =>
    cases b with
    | string t => exact Bool.beq_comm
    | _ => rfl

/-- equal atoms are of one kind, and only numbers can differ -/
theorem same_of_near {a b : Atom} (h : a.near b = true) :
    a.kind = b.kind ∧ a.symbol? = b.symbol? ∧ a.string? = b.string? := by
  cases a <;> cases b <;> try exact absurd h Bool.false_ne_true
  · exact ⟨rfl, rfl, rfl⟩
  · exact ⟨rfl, rfl, rfl⟩
  · exact ⟨rfl, congrArg some (eq_of_beq h), rfl⟩
  · exact ⟨rfl, rfl, rfl⟩
  · exact ⟨rfl, rfl, congrArg some (eq_of_beq h)⟩

theorem near_self_iff (a : Atom) : a.near a = true ↔ ∀ x ∈ a.numbers, x.isFinite = true := by
  have hself (x : Double) : x.near x = true ↔ x.isFinite = true := Number.near_self_iff
  cases a with
  | none => simp [near, numbers]
  | number x => simp [near, numbers, hself]
  | symbol s => simp [near, numbers]
  | complex z => simp [near, numbers, Complex.near, hself]
  | string s => simp [near, numbers]

end Atom

/-! ## Positions -/

theorem forall₂_iff_getElem? {α β : Type} {R : α → β → Prop} {xs : List α} {ys : List β} :
    List.Forall₂ R xs ys ↔ ∀ i : Nat, Option.Rel R xs[i]? ys[i]? := by
  constructor
  · intro h
    induction h with
    | nil => exact fun i => .none
    | cons hxy _ ih =>
      intro i
      cases i with
      | zero => exact .some hxy
      | succ i => simpa using ih i
  · intro h
    induction xs generalizing ys with
    | nil =>
      cases ys with
      | nil => exact .nil
      | cons y ys => cases h 0
    | cons x xs ih =>
      cases ys with
      | nil => cases h 0
      | cons y ys =>
        cases h 0 with
        | some hxy => exact .cons hxy (ih fun i => by simpa using h (i + 1))

theorem rel_imp {α β : Type} {R S : α → β → Prop} (hRS : ∀ a b, R a b → S a b) {x : Option α}
    {y : Option β} (h : Option.Rel R x y) : Option.Rel S x y := by
  cases h with
  | none => exact .none
  | some hab => exact .some (hRS _ _ hab)

namespace Expr

variable {a b : Expr}

/-- what holds of an expression if it holds of its children holds of all expressions -/
theorem tail_induction {P : Expr → Prop} (h : ∀ e : Expr, (∀ c ∈ e.tail, P c) → P e) (e : Expr) :
    P e :=
  h e fun c _ => tail_induction h c
termination_by sizeOf e
decreasing_by
  have hlt := List.sizeOf_lt_of_mem ‹c ∈ e.tail›
  cases e
  dsimp only at hlt
  simp only [Expr.mk.sizeOf_spec]
  omega

/-- the node at a position, which is told by the numbers of the children on the way down -/
def at? : Expr → List Nat → Option Expr
  | e, [] => some e
  | e, i :: path => e.tail[i]?.bind fun c => c.at? path

theorem at?_singleton (e : Expr) (i : Nat) : e.at? [i] = e.tail[i]? := by
  cases h : e.tail[i]? <;> simp [at?, h]

/-- equal heads, and as many children -/
structure Matches (a b : Expr) : Prop where
  head : a.head.near b.head = true
  count : a.tail.length = b.tail.length

theorem Matches.symm (h : Matches a b) : Matches b a :=
  ⟨(Atom.near_comm b.head a.head).trans h.head, h.count.symm⟩

theorem nearAll_iff {as bs : List Expr} :
    nearAll as bs = true ↔ List.Forall₂ (fun a b => a.near b = true) as bs := by
  induction as generalizing bs with
  | nil => cases bs <;> simp [nearAll]
  | cons a as ih => cases bs <;> simp [nearAll, ih]

theorem near_iff : a.near b = true ↔
    a.head.near b.head = true ∧ List.Forall₂ (fun c d => c.near d = true) a.tail b.tail := by
  rw [← nearAll_iff, ← Bool.and_eq_true]
  cases a
  cases b
  rw [near]

/-- subtrees of equal expressions are equal -/
theorem near_at? (h : a.near b = true) (path : List Nat) :
    Option.Rel (fun c d => c.near d = true) (a.at? path) (b.at? path) := by
  induction path generalizing a b with
  | nil => exact .some h
  | cons i path ih =>
    have hchild := forall₂_iff_getElem?.mp (near_iff.mp h).2 i
    unfold at?
    generalize a.tail[i]? = x at hchild ⊢
    generalize b.tail[i]? = y at hchild ⊢
    cases hchild with
    | none => exact .none
    | some hcd => exact ih hcd

theorem near_iff_at? :
    a.near b = true ↔ ∀ path, Option.Rel Matches (a.at? path) (b.at? path) := by
  constructor
  · intro h path
    refine rel_imp (fun c d hcd => ?_) (near_at? h path)
    obtain ⟨hhead, htail⟩ := near_iff.mp hcd
    exact ⟨hhead, htail.length_eq⟩
  · intro h
    induction a using tail_induction generalizing b with
    | h a ih =>
      refine near_iff.mpr ⟨?_, forall₂_iff_getElem?.mpr fun i => ?_⟩
      · cases h [] with
        | some hab => exact hab.head
      · -- position `[i]` says that both have an `i`th child or none has, the ones below it that
        -- these match
        have hi := h [i]
        rw [at?_singleton, at?_singleton] at hi
        cases hc : a.tail[i]? with
        | none =>
          rw [hc] at hi
          generalize b.tail[i]? = y at hi ⊢
          cases hi
          exact .none
        | some c =>
          cases hd : b.tail[i]? with
          | none =>
            rw [hc, hd] at hi
            cases hi
          | some d =>
            refine .some (ih c (List.mem_of_getElem? hc) fun path => ?_)
            have hpath := h (i :: path)
            simp only [at?, hc, hd, Option.bind_some] at hpath
            exact hpath

/-! ## Equality with itself -/

/-- An expression is equal to itself exactly if every number in it, alone or as a part of a complex
number, is finite. -/
theorem near_self_iff_isFinite (e : Expr) : e.near e = true ↔
    ∀ path c, e.at? path = some c → ∀ x ∈ c.head.numbers, x.isFinite = true := by
  simp only [near_iff_at?, ← Atom.near_self_iff]
  constructor
  · intro h path c hc
    have hpath := h path
    rw [hc] at hpath
    cases hpath with
    | some hmatch => exact hmatch.head
  · intro h path
    cases hc : e.at? path with
    | none => exact .none
    | some c => exact .some ⟨h path c hc, rfl⟩

/-- `(/ 1 0)` is a number and no NaN, but not equal to itself -/
theorem near_quotient_zero : ∃ e : Expr,
    Arithmetic.quotient [number 1, number 0] = .ok e ∧
    (∀ path c, e.at? path = some c → ∀ x ∈ c.head.numbers, x.isNaN = false) ∧
    e.near e = false := by
  have hleaf (path : List Nat) (c : Expr) (hc : (number (1 / 0)).at? path = some c) :
      c = number (1 / 0) := by
    cases path with
    | nil => exact (Option.some.inj hc).symm
    | cons i path => cases hc
  refine ⟨number (1 / 0), rfl, fun path c hc x hx => ?_, ?_⟩
  · rw [hleaf path c hc] at hx
    rw [List.mem_singleton.mp hx]
    decide
  · refine Bool.eq_false_of_not_eq_true fun h => ?_
    have hnear : Number.near (1 / 0) (1 / 0) = true := (near_iff.mp h).1
    exact absurd hnear (by decide)

/-! ## Two expressions -/

/-- nodes with as many children, with heads of one kind, and with the same text where it is one -/
structure SameForm (a b : Expr) : Prop where
  count : a.tail.length = b.tail.length
  kind : a.head.kind = b.head.kind
  symbol : a.head.symbol? = b.head.symbol?
  string : a.head.string? = b.head.string?

theorem Matches.sameForm (h : Matches a b) : SameForm a b := by
  obtain ⟨hkind, hsymbol, hstring⟩ := Atom.same_of_near h.head
  exact ⟨h.count, hkind, hsymbol, hstring⟩

theorem near_symm (h : a.near b = true) : b.near a = true := by
  rw [near_iff_at?] at h ⊢
  intro path
  have hpath := h path
  generalize a.at? path = x at hpath ⊢
  generalize b.at? path = y at hpath ⊢
  cases hpath with
  | none => exact .none
  | some hcd => exact .some hcd.symm

theorem head_skeleton (e : Expr) : e.skeleton.head = e.head := by
  rw [skeleton_eq]
  rfl

theorem tail_skeleton (e : Expr) : e.skeleton.tail = e.tail.map skeleton := by
  rw [skeleton_eq]
  rfl

theorem at?_skeleton (e : Expr) (path : List Nat) :
    e.skeleton.at? path = (e.at? path).map skeleton := by
  induction path generalizing e with
  | nil => rfl
  | cons i path ih =>
    unfold at?
    rw [tail_skeleton, List.getElem?_map]
    cases e.tail[i]? with
    | none => rfl
    | some c => exact ih c

theorem matches_skeleton : Matches a.skeleton b.skeleton ↔ Matches a b := by
  constructor
  · rintro ⟨hhead, hcount⟩
    rw [head_skeleton, head_skeleton] at hhead
    rw [tail_skeleton, tail_skeleton, List.length_map, List.length_map] at hcount
    exact ⟨hhead, hcount⟩
  · rintro ⟨hhead, hcount⟩
    refine ⟨?_, ?_⟩
    · rw [head_skeleton, head_skeleton]
      exact hhead
    · rw [tail_skeleton, tail_skeleton, List.length_map, List.length_map]
      exact hcount

theorem near_skeleton (a b : Expr) : a.skeleton.near b.skeleton = a.near b := by
  have hrel (x y : Option Expr) :
      Option.Rel Matches (x.map skeleton) (y.map skeleton) ↔ Option.Rel Matches x y := by
    cases x <;> cases y <;> simp [matches_skeleton]
  rw [Bool.eq_iff_iff, near_iff_at?, near_iff_at?]
  simp only [at?_skeleton, hrel]

/-- Equality is symmetric.  Equal expressions have the same shape, and at every position heads of
the same kind and the same names and strings.  Annotations make no difference, at whatever level
they stand. -/
theorem near_laws (a b : Expr) :
    (a.near b = true ↔ b.near a = true) ∧
    (a.near b = true → ∀ path, Option.Rel SameForm (a.at? path) (b.at? path)) ∧
    ∀ a' b' : Expr, a'.skeleton = a.skeleton → b'.skeleton = b.skeleton →
      a'.near b' = a.near b := by
  refine ⟨⟨near_symm, near_symm⟩, fun h path => ?_, fun a' b' ha hb => ?_⟩
  · exact rel_imp (fun _ _ hmatch => hmatch.sameForm) (near_iff_at?.mp h path)
  · rw [← near_skeleton a' b', ha, hb, near_skeleton]

/-- a list and one whose number is a little larger, with properties on it and on its string -/
theorem near_laws_annotated :
    (list [number 3.00000001, string "s"]).near (list [number 3, string "s"]) = true ∧
    (list [number 3, string "s"]).near (list [number 3.00000001, string "s"]) = true ∧
    Option.Rel SameForm ((list [number 3.00000001, string "s"]).at? [1])
      ((list [number 3, string "s"]).at? [1]) ∧
    ((list [number 3.00000001, (string "s").setProperty "size" (number 1)]).setProperty "k"
      nothing).near (list [number 3, string "s"]) = true := by
  have hnear : (list [number 3.00000001, string "s"]).near (list [number 3, string "s"]) =
      true := by
    decide
  obtain ⟨hsymm, hform, hblind⟩ :=
    near_laws (list [number 3.00000001, string "s"]) (list [number 3, string "s"])
  exact ⟨hnear, hsymm.mp hnear, hform hnear [1], (hblind _ _ rfl rfl).trans hnear⟩

end Expr

end ChartLisp
