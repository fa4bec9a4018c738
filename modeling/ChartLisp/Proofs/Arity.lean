import ChartLisp.Builtin.Call

/-!
# The argument counts of the built-in procedures

How many arguments a built-in procedure takes, and under which name it refuses others, is said twice:
by the table of procedures, which is asked before a call, and by the procedure itself, which reads
the arguments it is given.  The two agree, whatever the arguments are, and no procedure reads an
argument that is not there.

* `Blames procedure x`     `x` fails only by what is wrong with an argument of the procedure
* `Builtin.Takes b f`      `f` refuses the counts that `b` does not accept, under the name of `b`, and
                           with the other ones it finds fault with nothing but the arguments
* `Builtin.takes_run`      every procedure is of this kind
* `Builtin.call_eq_run`    so the check before a call changes nothing
-/

namespace ChartLisp

/-- errors about the kind or the value of an argument of the procedure -/
def EvalError.Blames (procedure : String) : EvalError → Prop
  | .wrongType name _ => name = procedure
  | .unusable name _ => name = procedure
  | _ => False

def Blames {α : Type} (procedure : String) (x : Except EvalError α) : Prop :=
  ∀ e, x = .error e → e.Blames procedure

namespace Blames

variable {α β : Type} {procedure : String}

theorem ok (a : α) : Blames procedure (.ok a) := fun _ h => nomatch h

theorem error {e : EvalError} (h : e.Blames procedure) :
    Blames procedure (.error e : Except EvalError α) := by
  intro e' he
  cases he
  exact h

theorem bind {x : Except EvalError α} {k : α → Except EvalError β} (h : Blames procedure x)
    (hk : ∀ a, Blames procedure (k a)) : Blames procedure (x >>= k) := by
  cases x with
  | error e => exact error (h e rfl)
  | ok a => exact hk a

theorem mapM {f : α → Except EvalError β} (h : ∀ a, Blames procedure (f a)) (xs : List α) :
    Blames procedure (xs.mapM f) := by
  induction xs with
  | nil =>
    rw [List.mapM_nil]
    exact ok []
  | cons x xs ih =>
    rw [List.mapM_cons]
    exact (h x).bind fun y => ih.bind fun ys => ok (y :: ys)

theorem foldlM {f : β → α → Except EvalError β} (h : ∀ b a, Blames procedure (f b a))
    (xs : List α) (b : β) : Blames procedure (xs.foldlM f b) := by
  induction xs generalizing b with
  | nil => exact ok b
  | cons x xs ih =>
    rw [List.foldlM_cons]
    exact (h b x).bind ih

end Blames

/-! ## Arguments and numbers -/

section
variable (procedure : String) (e : Expr)

namespace Argument

theorem number_blames : Blames procedure (number procedure e) := by
  unfold number
  cases e.number? with
  | some x => exact Blames.ok x
  | none => exact Blames.error rfl

theorem complex_blames : Blames procedure (complex procedure e) := by
  unfold complex
  cases e.complex? with
  | some z => exact Blames.ok z
  | none => exact Blames.error rfl

theorem elements_blames : Blames procedure (elements procedure e) := by
  unfold elements
  cases e.elements? with
  | some es => exact Blames.ok es
  | none => exact Blames.error rfl

/-- an argument that is there is read without fail -/
theorem nth_blames {args : List Expr} {i : Nat} (hi : i < args.length) :
    Blames procedure (nth args i) := by
  unfold nth
  rw [List.getElem?_eq_getElem hi]
  exact Blames.ok _

end Argument

theorem Scalar.read_blames : Blames procedure (Scalar.read procedure e) := by
  unfold Scalar.read
  split
  · exact Blames.ok _
  · exact Blames.ok _
  · exact Blames.error rfl

end

namespace Arithmetic

variable (procedure : String) (f : Double → Double → Double) (g : Complex → Complex → Complex)

theorem fold_blames (init : Double) (args : List Expr) :
    Blames procedure (fold procedure init f g args) := by
  have hstep : ∀ (acc : Scalar) (e : Expr), Blames procedure (step procedure f g acc e) :=
    fun acc e => (Scalar.read_blames procedure e).bind fun a => Blames.ok _
  exact (Blames.foldlM hstep args _).bind fun a => Blames.ok a.toExpr

theorem binary_blames (a b : Expr) : Blames procedure (binary procedure f g a b) :=
  (Scalar.read_blames procedure a).bind fun _ =>
    (Scalar.read_blames procedure b).bind fun _ => Blames.ok _

end Arithmetic

namespace Lists

theorem uncons_blames (procedure : String) (e : Expr) : Blames procedure (uncons procedure e) := by
  refine (Argument.elements_blames procedure e).bind fun es => ?_
  cases es with
  | nil => exact Blames.error rfl
  | cons x xs => exact Blames.ok (x, xs)

theorem ofCount_blames (procedure : String) (n : Nat) : Blames procedure (ofCount procedure n) := by
  unfold ofCount
  split
  · exact Blames.ok _
  · exact Blames.error rfl

end Lists

/-! ## Plots -/

namespace Plot

variable (procedure : String)

theorem Setting.ofKey_blames (key : String) (value : Expr) :
    Blames procedure (Setting.ofKey procedure key value) := by
  unfold Setting.ofKey
  split
  · exact (Argument.number_blames _ _).bind fun _ => Blames.ok _
  · split
    · exact Blames.error rfl
    · exact Blames.error rfl
    · exact Blames.ok _

theorem Setting.read_blames (e : Expr) : Blames procedure (Setting.read procedure e) := by
  refine (Argument.elements_blames procedure e).bind fun es => ?_
  split
  · split
    · exact Setting.ofKey_blames _ _ _
    · exact Blames.error rfl
  · exact Blames.error rfl

theorem Options.read_blames (e : Expr) : Blames procedure (Options.read procedure e) := by
  refine (Argument.elements_blames procedure e).bind fun es => ?_
  exact (Blames.mapM (Setting.read_blames procedure) es).bind fun _ => Blames.ok _

theorem finitePoint_blames (x y : Double) : Blames procedure (finitePoint procedure x y) := by
  unfold finitePoint
  split
  · exact Blames.ok _
  · exact Blames.error rfl

theorem readPoint_blames (e : Expr) : Blames procedure (readPoint procedure e) := by
  refine (Argument.elements_blames procedure e).bind fun es => ?_
  split
  · refine (Argument.number_blames _ _).bind fun x => ?_
    exact (Argument.number_blames _ _).bind fun y => finitePoint_blames _ x y
  · exact Blames.error rfl

theorem Discrete.plotData_blames (data : Expr) (o : Options) :
    Blames Discrete.procedure (Discrete.plotData data o) := by
  refine (Argument.elements_blames _ data).bind fun es => ?_
  refine (Blames.mapM (readPoint_blames _) es).bind fun ps => ?_
  cases Extent.ofPoints? ps with
  | none => exact Blames.error rfl
  | some b => exact Blames.ok _

end Plot

/-! ## Counts -/

namespace Builtin

/-- `f` as the procedure `b`: a count that `b` does not accept is refused under the name of `b`,
whatever the arguments are; with every other one nothing is blamed but the arguments -/
structure Takes (b : Builtin) (f : List Expr → Except EvalError Expr) : Prop where
  refused {args : List Expr} : b.accepts args.length = false → f args = .error (.argumentCount b.name)
  accepted {args : List Expr} : b.accepts args.length = true → Blames b.name (f args)

namespace Takes

variable {b : Builtin} {f : List Expr → Except EvalError Expr}

theorem any (hb : ∀ n, b.accepts n = true) (h : ∀ args, Blames b.name (f args)) : Takes b f where
  refused {args} hn := by
    rw [hb] at hn
    cases hn
  accepted {args} _ := h args

/-- a function that checks the count first, and then reads the arguments by their places -/
theorem exactly {count : Nat} {procedure : String} (hname : procedure = b.name)
    (hb : ∀ n, b.accepts n = decide (n = count))
    (h : ∀ args, args.length = count → Blames procedure (f args)) :
    Takes b fun args => Argument.requireCount procedure count args >>= fun _ => f args where
  refused {args} hn := by
    rw [hb, decide_eq_false_iff_not] at hn
    simp only [Argument.requireCount, if_neg hn, hname]
    rfl
  accepted {args} hn := by
    rw [hb, decide_eq_true_eq] at hn
    simp only [Argument.requireCount, if_pos hn, ← hname]
    exact h args hn

theorem oneOrTwo (hb : ∀ n, b.accepts n = (decide (n = 1) || decide (n = 2)))
    (h : ∀ e, Blames b.name (f [e])) (h' : ∀ e e', Blames b.name (f [e, e']))
    (hnone : f [] = .error (.argumentCount b.name))
    (hmore : ∀ e e' e'' es, f (e :: e' :: e'' :: es) = .error (.argumentCount b.name)) :
    Takes b f where
  refused {args} hn := by
    rw [hb] at hn
    match args with
    | [] => exact hnone
    | [_] => cases hn
    | [_, _] => cases hn
    | e :: e' :: e'' :: es => exact hmore e e' e'' es
  accepted {args} hn := by
    rw [hb] at hn
    match args with
    | [e] => exact h e
    | [e, e'] => exact h' e e'

end Takes

theorem takes_root : sqrt.Takes Arithmetic.root where
  refused {args} hn := by
    match args with
    | [] => rfl
    | [_] => cases hn
    | _ :: _ :: _ => rfl
  accepted {args} hn := by
    match args with
    | [e] => exact (Scalar.read_blames _ e).bind fun _ => Blames.ok _

theorem takes_power : power.Takes Arithmetic.power where
  refused {args} hn := by
    match args with
    | [] => rfl
    | [_] => rfl
    | [_, _] => cases hn
    | _ :: _ :: _ :: _ => rfl
  accepted {args} hn := by
    match args with
    | [a, b] => exact Arithmetic.binary_blames _ _ _ a b

theorem takes_difference : subtract.Takes Arithmetic.difference :=
  .oneOrTwo (fun _ => rfl) (fun e => Arithmetic.binary_blames _ _ _ _ e)
    (fun e e' => Arithmetic.binary_blames _ _ _ e e') rfl fun _ _ _ _ => rfl

theorem takes_quotient : divide.Takes Arithmetic.quotient :=
  .oneOrTwo (fun _ => rfl) (fun e => Arithmetic.binary_blames _ _ _ _ e)
    (fun e e' => Arithmetic.binary_blames _ _ _ e e') rfl fun _ _ _ _ => rfl

theorem takes_plot : discretePlot.Takes Plot.Discrete.plot := by
  refine .oneOrTwo (fun _ => rfl) (fun data => ?_) (fun data options => ?_) rfl fun _ _ _ _ => rfl
  · exact Plot.Discrete.plotData_blames data _
  · exact (Plot.Options.read_blames _ options).bind fun o => Plot.Discrete.plotData_blames data o

theorem takes_ofNumber {b : Builtin} {procedure : String} (hname : procedure = b.name)
    (hb : ∀ n, b.accepts n = decide (n = 1)) (f : Double → Double) :
    b.Takes (Analysis.ofNumber procedure f) := by
  refine .exactly hname hb fun args hn => ?_
  refine (Argument.nth_blames _ (by omega)).bind fun e => ?_
  exact (Argument.number_blames _ e).bind fun _ => Blames.ok _

theorem takes_ofComplex {b : Builtin} {procedure : String} (hname : procedure = b.name)
    (hb : ∀ n, b.accepts n = decide (n = 1)) (f : Complex → Expr) :
    b.Takes (Analysis.ofComplex procedure f) := by
  refine .exactly hname hb fun args hn => ?_
  refine (Argument.nth_blames _ (by omega)).bind fun e => ?_
  exact (Argument.complex_blames _ e).bind fun _ => Blames.ok _

theorem takes_logarithm : ln.Takes Analysis.logarithm := by
  refine .exactly rfl (fun _ => rfl) fun args hn => ?_
  refine (Argument.nth_blames _ (by omega)).bind fun e => ?_
  refine (Argument.number_blames _ e).bind fun x => ?_
  split
  · exact Blames.error rfl
  · exact Blames.ok _

theorem takes_first : first.Takes Lists.first := by
  refine .exactly rfl (fun _ => rfl) fun args hn => ?_
  refine (Argument.nth_blames _ (by omega)).bind fun e => ?_
  exact (Lists.uncons_blames _ e).bind fun _ => Blames.ok _

theorem takes_rest : rest.Takes Lists.rest := by
  refine .exactly rfl (fun _ => rfl) fun args hn => ?_
  refine (Argument.nth_blames _ (by omega)).bind fun e => ?_
  exact (Lists.uncons_blames _ e).bind fun _ => Blames.ok _

theorem takes_length : length.Takes Lists.length := by
  refine .exactly rfl (fun _ => rfl) fun args hn => ?_
  refine (Argument.nth_blames _ (by omega)).bind fun e => ?_
  refine (Argument.elements_blames _ e).bind fun es => ?_
  exact (Lists.ofCount_blames _ _).bind fun _ => Blames.ok _

theorem takes_append : append.Takes Lists.append := by
  refine .exactly rfl (fun _ => rfl) fun args hn => ?_
  refine (Argument.nth_blames _ (by omega)).bind fun e => ?_
  refine (Argument.elements_blames _ e).bind fun es => ?_
  exact (Argument.nth_blames _ (by omega)).bind fun _ => Blames.ok _

theorem takes_join : join.Takes Lists.join := by
  refine .exactly rfl (fun _ => rfl) fun args hn => ?_
  refine (Argument.nth_blames _ (by omega)).bind fun e => ?_
  refine (Argument.elements_blames _ e).bind fun xs => ?_
  refine (Argument.nth_blames _ (by omega)).bind fun e' => ?_
  exact (Argument.elements_blames _ e').bind fun ys => Blames.ok _

theorem takes_range : range.Takes Lists.range := by
  refine .exactly rfl (fun _ => rfl) fun args hn => ?_
  refine (Argument.nth_blames _ (by omega)).bind fun a => ?_
  refine (Argument.number_blames _ a).bind fun start => ?_
  refine (Argument.nth_blames _ (by omega)).bind fun b => ?_
  refine (Argument.number_blames _ b).bind fun stop => ?_
  refine (Argument.nth_blames _ (by omega)).bind fun c => ?_
  refine (Argument.number_blames _ c).bind fun step => ?_
  cases Lists.values start stop step with
  | ok xs => exact Blames.ok _
  | error fault => exact Blames.error rfl

/-- each procedure by itself refuses the counts that it does not accept, and no other ones -/
theorem takes_run (b : Builtin) : b.Takes b.run := by
  cases b with
  | add => exact .any (fun _ => rfl) fun args => Arithmetic.fold_blames _ _ _ _ args
  | multiply => exact .any (fun _ => rfl) fun args => Arithmetic.fold_blames _ _ _ _ args
  | list => exact .any (fun _ => rfl) fun args => Blames.ok (Expr.list args)
  | subtract => exact takes_difference
  | divide => exact takes_quotient
  | power => exact takes_power
  | sqrt => exact takes_root
  | ln => exact takes_logarithm
  | sin => exact takes_ofNumber rfl (fun _ => rfl) _
  | cos => exact takes_ofNumber rfl (fun _ => rfl) _
  | tan => exact takes_ofNumber rfl (fun _ => rfl) _
  | real => exact takes_ofComplex rfl (fun _ => rfl) _
  | imag => exact takes_ofComplex rfl (fun _ => rfl) _
  | mag => exact takes_ofComplex rfl (fun _ => rfl) _
  | arg => exact takes_ofComplex rfl (fun _ => rfl) _
  | conj => exact takes_ofComplex rfl (fun _ => rfl) _
  | first => exact takes_first
  | rest => exact takes_rest
  | length => exact takes_length
  | append => exact takes_append
  | join => exact takes_join
  | range => exact takes_range
  | discretePlot => exact takes_plot

/-- The check of the number of arguments before a call gives what the procedure gives by itself.
The procedure refuses a count that is not accepted, under the name it has in the table; with an
accepted one it returns a value or finds fault with an argument, under that name too, and never with
how many there are.  It never asks for an argument behind the last one. -/
theorem call_eq_run (b : Builtin) (args : List Expr) :
    b.call args = b.run args ∧
    (b.accepts args.length = false → b.run args = .error (.argumentCount b.name)) ∧
    (b.accepts args.length = true →
      (∀ name, b.run args ≠ .error (.argumentCount name)) ∧
      ((∃ value, b.run args = .ok value) ∨
        (∃ fault, b.run args = .error (.wrongType b.name fault)) ∨
        ∃ fault, b.run args = .error (.unusable b.name fault))) ∧
    ∀ length index, b.run args ≠ .error (.outOfBounds length index) := by
  have hrefused : b.accepts args.length = false → b.run args = .error (.argumentCount b.name) :=
    b.takes_run.refused
  have haccepted : b.accepts args.length = true → Blames b.name (b.run args) :=
    b.takes_run.accepted
  refine ⟨?_, hrefused, fun h => ⟨fun name herr => haccepted h _ herr, ?_⟩, fun n i herr => ?_⟩
  · unfold call
    cases h : b.accepts args.length with
    | true => rw [if_pos rfl]
    | false => rw [if_neg Bool.false_ne_true, hrefused h]
  · cases hrun : b.run args with
    | ok value => exact .inl ⟨value, rfl⟩
    | error e =>
      have hblames := haccepted h e hrun
      cases e with
      | wrongType name fault => exact .inr (.inl ⟨fault, by rw [show name = b.name from hblames]⟩)
      | unusable name fault => exact .inr (.inr ⟨fault, by rw [show name = b.name from hblames]⟩)
      | _ => exact hblames.elim
  · cases h : b.accepts args.length with
    | true => exact haccepted h _ herr
    | false => cases herr.symm.trans (hrefused h)

end Builtin

end ChartLisp
