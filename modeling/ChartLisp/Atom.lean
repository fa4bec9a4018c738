import ChartLisp.Complex
import ChartLisp.Number.Literal

/-!
# Atoms

An atom heads every node of an expression.

* `Atom`           nothing, a number, a symbol, a complex number or a string;
* `Atom.ofWord?` what a word of the source is: a number if it is a decimal literal, malformed if
                   it is empty or starts with a digit all the same, and a symbol otherwise;
* `Atom.near`      equality, numbers up to the tolerance;
* `Atom.text`      the written form.
-/

namespace ChartLisp

inductive Atom where
  | none
  | number (x : Double)
  | symbol (name : String)
  | complex (z : Complex)
  | string (text : String)
deriving DecidableEq

namespace Atom

open Number (Literal)

def startsWithDigit : List Char → Bool
  | [] => false
  | c :: _ => c.isDigit

def ofWord? (lexeme : String) : Option Atom :=
  match Literal.read? lexeme.toList with
  | some l => some (.number (Double.ofFloat l.value))
  | .none =>
    if lexeme.toList = [] ∨ startsWithDigit lexeme.toList then .none else some (.symbol lexeme)

/-! ## Views -/

def number? : Atom → Option Double
  | .number x => some x
  | _ => .none

def symbol? : Atom → Option String
  | .symbol s => some s
  | _ => .none

def complex? : Atom → Option Complex
  | .complex z => some z
  | _ => .none

def string? : Atom → Option String
  | .string s => some s
  | _ => .none

def isNone : Atom → Bool
  | .none => true
  | _ => false

/-! ## Comparison and text -/

def near : Atom → Atom → Bool
  | .none, .none => true
  | .number x, .number y => x.near y
  | .complex z, .complex w => z.near w
  | .symbol s, .symbol t => s == t
  | .string s, .string t => s == t
  | _, _ => false

/-- a string keeps its quotes; nothing has no text -/
def text : Atom → String
  | .none => ""
  | .number x => x.text
  | .symbol s => s
  | .complex z => z.text
  | .string s => "\"" ++ s ++ "\""

end Atom

end ChartLisp
