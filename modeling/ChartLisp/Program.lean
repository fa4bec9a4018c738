import ChartLisp.Expr
import ChartLisp.Token.Scan

/-!
# Programs

A program is one parenthesised node: an opening parenthesis, an atom as head, any number of atoms
and nodes, and a closing parenthesis.

* `Program.State`   what has been read of a program: the nodes still open, innermost first, or the
                    closed root
* `Program.step`    one more token
* `Program.parse`   the program a token sequence is
* `Program.read`    the program a source text is
* `Program.readBytes`  the same for bytes, which must be UTF-8
-/

namespace ChartLisp.Program

/-- a node that is not closed yet: its head and its children so far, the last one first -/
structure Open where
  head : Atom
  items : List Expr

namespace Open

def push (o : Open) (e : Expr) : Open := { o with items := e :: o.items }

def close (o : Open) : Expr := Expr.node o.head o.items.reverse

end Open

inductive State where
  /-- nodes still open; `atHead` right after an opening parenthesis -/
  | building (nodes : List Open) (atHead : Bool)
  | done (root : Expr)

def atomOf (t : Placed) : Except ParseError (Option Atom) :=
  match t.token with
  | .string s => .ok (some (.string s))
  | .word w =>
    match Atom.ofWord? w with
    | some a => .ok (some a)
    | none => .error (.malformedNumber w t.line)
  | _ => .ok none

/-- puts an atom into the tree: the head of a new node, or a leaf of the innermost open one -/
def putAtom (a : Atom) (t : Placed) (nodes : List Open) (atHead : Bool) : Except ParseError State :=
  if atHead then
    if nestingLimit ≤ nodes.length then .error (.tooDeep t.line)
    else .ok (.building (⟨a, []⟩ :: nodes) false)
  else
    match nodes with
    | [] => .error (.bare t.token t.line)
    | top :: rest => .ok (.building (top.push (Expr.leaf a) :: rest) false)

def closeNode (line : Nat) : List Open → Except ParseError State
  | [] => .error (.unbalanced line)
  | [root] => .ok (.done root.close)
  | node :: parent :: rest => .ok (.building (parent.push node.close :: rest) false)

def step (s : State) (t : Placed) : Except ParseError State :=
  match s with
  | .done _ => .error (.trailing t.token t.line)
  | .building nodes atHead =>
    match t.token with
    | .opening =>
      if atHead then .error (.misplaced t.token t.line) else .ok (.building nodes true)
    | .closing =>
      if atHead then .error (.misplaced t.token t.line) else closeNode t.line nodes
    | .unclosed => .error (.unclosedString t.line)
    | _ => do
      match ← atomOf t with
      | some a => putAtom a t nodes atHead
      | none => .ok s

def lastLine (ts : List Placed) : Nat := (ts.getLast?.map Placed.line).getD 1

def parse (ts : List Placed) : Except ParseError Expr :=
  if ts.isEmpty then .error .noTokens
  else do
    match ← ts.foldlM step (.building [] false) with
    | .done root => .ok root
    | .building _ _ => .error (.unfinished (lastLine ts))

def read (source : String) : Except ParseError Expr := do parse (← Token.scan source)

def readBytes (bytes : ByteArray) : Except ParseError Expr :=
  match String.fromUTF8? bytes with
  | some source => read source
  | none => .error .notText

end ChartLisp.Program
