import ChartLisp.Proofs.Closure
import ChartLisp.Proofs.Growth

/-!
# The names that expressions and the procedures in them read

* `Expr.Mentions`     the names that occur anywhere
* `Expr.Free`         the names that occur other than as parameters and below them
* `Expr.Builds`       the procedures that an expression builds where it is evaluated
* `Expr.ReadsAhead`   a sequence of expressions builds a procedure that reads a name, and defines
                      the name not before it is built
-/

namespace ChartLisp.Expr

/-- the name heads a node of the expression -/
inductive Mentions : Expr → String → Prop where
  | head {e : Expr} {n : String} (h : e.head = .symbol n) : Mentions e n
  | child {e c : Expr} {n : String} (hc : c ∈ e.tail) (h : Mentions c n) : Mentions e n

/-- The name heads a node of the expression that is not inside of a procedure with that parameter.
The name that a `define` binds counts among them. -/
inductive Free : Expr → String → Prop where
  | head {e : Expr} {n : String} (h : e.head = .symbol n) : Free e n
  | child {e c : Expr} {n : String} (hl : e.head ≠ .symbol Form.lambda.name) (hc : c ∈ e.tail)
      (h : Free c n) : Free e n
  | body {e params body : Expr} {n : String} (hl : e.head = .symbol Form.lambda.name)
      (ht : e.tail = [params, body]) (hn : n ∉ Eval.parameters params) (h : Free body n) : Free e n

/-- the expression contains the procedure, and no other procedure around it -/
inductive Builds : Expr → Expr → Prop where
  | here {e : Expr} (hl : e.head = .symbol Form.lambda.name) : Builds e e
  | child {e c l : Expr} (hl : e.head ≠ .symbol Form.lambda.name) (hc : c ∈ e.tail)
      (h : Builds c l) : Builds e l

theorem mentions_node_iff {a : Atom} {es : List Expr} {n : String} :
    (node a es).Mentions n ↔ a = .symbol n ∨ ∃ c ∈ es, c.Mentions n := by
  constructor
  · intro h
    cases h with
    | head h => exact .inl h
    | child hc h => exact .inr ⟨_, hc, h⟩
  · rintro (h | ⟨c, hc, h⟩)
    · exact .head h
    · exact .child hc h

theorem Free.mentions {e : Expr} {n : String} (h : e.Free n) : e.Mentions n := by
  induction h with
  | head h => exact .head h
  | child _ hc _ ih => exact .child hc ih
  | @body e params body n _ ht _ _ ih =>
    have hbody : body ∈ e.tail := by simp [ht]
    exact .child hbody ih

/-- the mark of a body changes neither its head nor its children -/
theorem Mentions.of_mark {e : Expr} {n : String} {mark : Bool}
    (h : Mentions { e with isBody := mark } n) : e.Mentions n := by
  cases h with
  | head h => exact .head h
  | child hc h => exact .child hc h

theorem Free.of_mark {e : Expr} {n : String} {mark : Bool} (h : Free { e with isBody := mark } n) :
    e.Free n := by
  cases h with
  | head h => exact .head h
  | child hl hc h => exact .child hl hc h
  | body hl ht hn h => exact .body hl ht hn h

/-- One of the expressions builds a procedure that reads the name.  No expression before that one
defines the name, but it does so itself or one behind it does. -/
def ReadsAhead (es : List Expr) (n : String) : Prop :=
  ∃ before e after, es = before ++ e :: after ∧ (∀ c ∈ before, ¬ c.Defines n) ∧
    (∃ l, e.Builds l ∧ l.Free n) ∧ ∃ c ∈ e :: after, c.Defines n

end ChartLisp.Expr
