/-!
# Tokens

* `Token`     a parenthesis, a string, a string that is never closed, a word, or matter without
              meaning (blanks and comments), which a token sequence may hold but no source has
* `Placed`    a token with its line
-/

namespace ChartLisp

inductive Token where
  | opening
  | closing
  | string (text : String)
  | unclosed
  | word (text : String)
  | blank
deriving DecidableEq

/-- how a message shows the token: an unclosed string by its quote, a blank not at all -/
def Token.text : Token → String
  | .opening => "("
  | .closing => ")"
  | .string s => "\"" ++ s ++ "\""
  | .unclosed => "\""
  | .word s => s
  | .blank => ""

structure Placed where
  token : Token
  line : Nat
deriving DecidableEq

end ChartLisp
