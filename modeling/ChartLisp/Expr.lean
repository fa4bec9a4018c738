import ChartLisp.Atom
import ChartLisp.Bindings

/-!
# Expressions

One tree is both the syntax of a program and every value it computes.

* `Expr`          a head atom with children, and annotations that neither equality nor evaluation
                  looks at: properties, the bindings a closure captured, and the mark of a
                  procedure's body
* `Expr.list`     the canonical list: the symbol `list` with the elements as children
* `Expr.near`     equality of heads and children, numbers up to the tolerance
* `Expr.render`   the written form
-/

namespace ChartLisp

structure Expr where
  head : Atom
  /-- the children, in order -/
  tail : List Expr
  /-- named annotations, a `Bindings` -/
  properties : List (String × Expr)
  /-- what a closure took over from the call that built it, a `Bindings` -/
  captured : List (String × Expr)
  /-- marks the body of a procedure; only the rendering of `list` heads depends on it -/
  isBody : Bool

namespace Expr

def listName : String := "list"

def lambdaName : String := "lambda"

/-! ## Construction -/

def node (head : Atom) (tail : List Expr) : Expr := ⟨head, tail, [], [], false⟩

def leaf (head : Atom) : Expr := node head []

def nothing : Expr := leaf .none

def number (x : Double) : Expr := leaf (.number x)

def complex (z : Complex) : Expr := leaf (.complex z)

def symbol (name : String) : Expr := leaf (.symbol name)

def string (text : String) : Expr := leaf (.string text)

def list (elements : List Expr) : Expr := node (.symbol listName) elements

instance : Inhabited Expr := ⟨nothing⟩

/-! ## Views -/

def isLeaf (e : Expr) : Bool := e.tail.isEmpty

def isList (e : Expr) : Bool := e.head.symbol? == some listName

def isLambda (e : Expr) : Bool := e.head.symbol? == some lambdaName

def isNone (e : Expr) : Bool := e.head.isNone && e.isLeaf

/-- the number at the head, whatever the children -/
def headNumber? (e : Expr) : Option Double := e.head.number?

def number? (e : Expr) : Option Double := if e.isLeaf then e.head.number? else none

def complex? (e : Expr) : Option Complex := if e.isLeaf then e.head.complex? else none

def string? (e : Expr) : Option String := if e.isLeaf then e.head.string? else none

def symbol? (e : Expr) : Option String := if e.isLeaf then e.head.symbol? else none

def elements? (e : Expr) : Option (List Expr) := if e.isList then some e.tail else none

/-! ## Properties -/

def setProperty (e : Expr) (key : String) (value : Expr) : Expr :=
  { e with properties := Bindings.insert key value e.properties }

/-- what is attached under `key`, or the empty expression -/
def property (e : Expr) (key : String) : Expr := (Bindings.get? e.properties key).getD nothing

/-! ## Comparison -/

mutual

def near : Expr → Expr → Bool
  | ⟨h, t, _, _, _⟩, ⟨h', t', _, _, _⟩ => h.near h' && nearAll t t'

def nearAll : List Expr → List Expr → Bool
  | [], [] => true
  | e :: es, e' :: es' => near e e' && nearAll es es'
  | _, _ => false

end

/-! ## Text -/

/-- whether the rendering leaves the head out: lists show their elements only, unless they are a
procedure's body, and closures show their parameters and body -/
def hidesHead (e : Expr) : Bool := e.isLambda || (e.isList && !e.isBody)

mutual

def render : Expr → String
  | ⟨.none, _, _, _, _⟩ => "NONE"
  | ⟨h, t, p, c, l⟩ =>
    let head := if hidesHead ⟨h, t, p, c, l⟩ then [] else [h.text]
    "(" ++ " ".intercalate (head ++ renderAll t) ++ ")"

def renderAll : List Expr → List String
  | [] => []
  | e :: es => render e :: renderAll es

end

theorem renderAll_eq_map (es : List Expr) : renderAll es = es.map render := by
  induction es with
  | nil => rfl
  | cons e es ih => rw [renderAll, ih, List.map_cons]

end Expr

end ChartLisp
