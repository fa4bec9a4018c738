import ChartLisp.Token

/-!
# Why a source is no program

One cause per constructor, with the line it was found on; `ParseError.message` words them.
-/

namespace ChartLisp

/-- most nodes that may be open at once -/
def nestingLimit : Nat := 100

inductive ParseError where
  | noTokens
  /-- a parenthesis directly after an opening one, or text that begins no token -/
  | misplaced (token : Token) (line : Nat)
  /-- a closing parenthesis with nothing open -/
  | unbalanced (line : Nat)
  /-- the tokens end before the root is closed -/
  | unfinished (line : Nat)
  /-- a token after the root is closed -/
  | trailing (token : Token) (line : Nat)
  /-- a word that starts with a digit and is no number -/
  | malformedNumber (word : String) (line : Nat)
  /-- a word or string outside of all parentheses -/
  | bare (token : Token) (line : Nat)
  | unclosedString (line : Nat)
  | tooDeep (line : Nat)
  | notText
deriving DecidableEq

namespace ParseError

def onLine (line : Nat) : String := "Error on line " ++ toString line ++ ": "

def message : ParseError → String
  | .noTokens => "Error: Program is empty."
  | .misplaced token line => onLine line ++ "Unexpected token: " ++ token.text ++ "."
  | .unbalanced line => onLine line ++ "Unbalanced closing parenthesis ')'."
  | .unfinished line =>
    onLine line ++ "Unexpected end of input, expected closing parenthesis ')'."
  | .trailing token line =>
    onLine line ++ "Extra tokens after expression. Check your input: " ++ token.text
  | .malformedNumber word line => onLine line ++ "Malformed numeric literal '" ++ word ++ "'."
  | .bare token line => onLine line ++ "'" ++ token.text ++ "' must be enclosed in parentheses."
  | .unclosedString line => onLine line ++ "String literal is never closed."
  | .tooDeep line =>
    onLine line ++ "Expressions are nested deeper than " ++ toString nestingLimit ++ " levels."
  | .notText => "Error: Could not read program: stream did not contain valid UTF-8"

end ParseError

end ChartLisp
