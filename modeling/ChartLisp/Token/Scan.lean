import ChartLisp.Program.Error
import ChartLisp.Token.Pattern

/-!
# The tokens of a source

* `Kind`       what a piece of a source can be, with the pattern of its texts
* `Kind.token?`, `Kind.lineEnds`   the token that a piece is, and how far it moves the line
* `next?`      the longest piece that a source begins with
* `scan`       the tokens of a source text, each on the line that is reached with it

Strings count the line ends inside them, and a line end elsewhere is a piece of its own.
-/

namespace ChartLisp.Token

def isSpace (c : Char) : Bool := [' ', '\t', '\r', '\x0c', '\x0b'].contains c

/-- the characters of a word: all that neither separate tokens nor start another kind of token -/
def isWordChar (c : Char) : Bool :=
  !([' ', '\t', '\r', '\n', '\x0c', '\x0b', '(', ')', '"', ';'].contains c)

inductive Kind where
  | opening
  | closing
  | string
  | unclosed
  | word
  | comment
  | lineEnd
  | spaces
deriving DecidableEq

namespace Kind

def all : List Kind := [.opening, .closing, .string, .unclosed, .word, .comment, .lineEnd, .spaces]

def pattern : Kind → Pattern
  | .opening => .char '('
  | .closing => .char ')'
  | .string => .seq (.char '"') (.seq (.many (· != '"')) (.char '"'))
  | .unclosed => .seq (.char '"') (.many (· != '"'))
  | .word => .plus isWordChar
  | .comment => .seq (.char ';') (.many (· != '\n'))
  | .lineEnd => .char '\n'
  | .spaces => .plus isSpace

def token? (slice : List Char) : Kind → Option Token
  | .opening => some .opening
  | .closing => some .closing
  | .string => some (.string (String.ofList slice.tail.dropLast))
  | .unclosed => some .unclosed
  | .word => some (.word (String.ofList slice))
  | .comment => none
  | .lineEnd => none
  | .spaces => none

def lineEnds (slice : List Char) : Kind → Nat
  | .string => slice.count '\n'
  | .unclosed => slice.count '\n'
  | .lineEnd => 1
  | _ => 0

def placed (k : Kind) (slice : List Char) (line : Nat) : List Placed :=
  ((k.token? slice).map fun t => ⟨t, line⟩).toList

end Kind

/-- the longest match among the kinds, the first of equally long ones -/
def pick (cs : List Char) : List Kind → Option (Kind × Nat)
  | [] => none
  | k :: ks =>
    match k.pattern.longest? cs, pick cs ks with
    | none, best => best
    | some n, none => some (k, n)
    | some n, some (k', n') => if n < n' then some (k', n') else some (k, n)

def next? (cs : List Char) : Option (Kind × Nat) := pick cs Kind.all

/-- The tokens of the rest of a source, whose first `skip` characters belong to the piece before.
Where no kind matches, the source is refused with the character that stands there. -/
def scanFrom : Nat → Nat → List Char → Except ParseError (List Placed)
  | _, _, [] => .ok []
  | line, skip + 1, _ :: cs => scanFrom line skip cs
  | line, 0, c :: cs =>
    match next? (c :: cs) with
    | none => .error (.misplaced (.word (String.singleton c)) line)
    | some (k, n) => do
      let slice := (c :: cs).take n
      let line := line + k.lineEnds slice
      return k.placed slice line ++ (← scanFrom line (n - 1) cs)

def scan (source : String) : Except ParseError (List Placed) := scanFrom 1 0 source.toList

end ChartLisp.Token
