/-!
# Patterns of characters

* `Pattern`    one character of a class, any number of them, one pattern after another, or either of
               two
* `deriv`      what is left of a pattern behind a first character
* `longest?`   the length of the longest beginning of a text that fits a pattern

`Pattern.nothing` and `Pattern.done` are what patterns come to behind their last character.  They
are dropped from a pattern as soon as they arise, so that a text is only followed as far as it fits.
-/

namespace ChartLisp.Token

inductive Pattern where
  | nothing
  /-- the empty text -/
  | done
  | one (accepts : Char → Bool)
  | many (accepts : Char → Bool)
  | seq (first second : Pattern)
  | alt (first second : Pattern)

namespace Pattern

def char (c : Char) : Pattern := .one (· == c)

def plus (accepts : Char → Bool) : Pattern := .seq (.one accepts) (.many accepts)

def nullable : Pattern → Bool
  | .nothing => false
  | .done => true
  | .one _ => false
  | .many _ => true
  | .seq a b => a.nullable && b.nullable
  | .alt a b => a.nullable || b.nullable

def andThen : Pattern → Pattern → Pattern
  | .nothing, _ => .nothing
  | .done, b => b
  | a, b => .seq a b

def orElse : Pattern → Pattern → Pattern
  | .nothing, b => b
  | a, .nothing => a
  | a, b => .alt a b

def deriv (c : Char) : Pattern → Pattern
  | .nothing => .nothing
  | .done => .nothing
  | .one p => if p c then .done else .nothing
  | .many p => if p c then .many p else .nothing
  | .seq a b =>
    let rest := (a.deriv c).andThen b
    if a.nullable then rest.orElse (b.deriv c) else rest
  | .alt a b => (a.deriv c).orElse (b.deriv c)

def empty? (r : Pattern) : Option Nat := if r.nullable then some 0 else none

def longest? : List Char → Pattern → Option Nat
  | [], r => r.empty?
  | c :: cs, r =>
    match r.deriv c with
    | .nothing => r.empty?
    | rest => ((longest? cs rest).map (· + 1)).or r.empty?

end Pattern

end ChartLisp.Token
