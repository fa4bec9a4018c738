import ChartLisp.Session

/-!
# The command line

* `CommandLine.Arguments`  where the program is to be found, and whether the log is shown
* `CommandLine.Input`      the program, as far as it could be read
* `CommandLine.Output`     exit status and what goes to either stream
* `CommandLine.run`        parses and evaluates the program once
-/

namespace ChartLisp.CommandLine

inductive Source where
  | standardInput
  | file (path : String)
  | expression (text : String)

structure Arguments where
  source : Source
  debug : Bool

namespace Arguments

def withSource? (a : Arguments) (s : Source) : Option Arguments :=
  match a.source with
  | .standardInput => some { a with source := s }
  | _ => none

def expressionText? (s : String) : Option String :=
  let key := "--expression=".toList
  if key.isPrefixOf s.toList then some (String.ofList (s.toList.drop key.length)) else none

def extend? (a : Arguments) : List String → Option Arguments
  | [] => some a
  | "--debug" :: rest => extend? { a with debug := true } rest
  | "-e" :: text :: rest => (a.withSource? (.expression text)).bind (extend? · rest)
  | "--expression" :: text :: rest => (a.withSource? (.expression text)).bind (extend? · rest)
  | s :: rest =>
    match expressionText? s with
    | some text => (a.withSource? (.expression text)).bind (extend? · rest)
    | none =>
      if s.toList.head? = some '-' then none
      else (a.withSource? (.file s)).bind (extend? · rest)

/-- the arguments of a command line; without a source the program comes from standard input -/
def parse? (args : List String) : Option Arguments := extend? ⟨.standardInput, false⟩ args

end Arguments

inductive Input where
  /-- the bytes of a file, of standard input or of an argument -/
  | bytes (content : ByteArray)
  /-- a file that cannot be opened, as it was named -/
  | missing (path : String)
  /-- a file that can be opened and not be read -/
  | unreadable

structure Output where
  code : UInt8
  stdout : String
  stderr : String
  /-- the log, in order -/
  log : List Event

def failure (message : String) (log : List Event) : Output := ⟨1, "", message ++ "\n", log⟩

def noProgram (log : List Event) : Output := failure EvalError.noProgram.message log

def run : Input → Output
  | .missing path => failure ("Error: Could not open file " ++ path ++ " for reading.") []
  | .unreadable => noProgram []
  | .bytes content =>
    match Session.fresh.parseBytes content with
    | (false, s) => noProgram s.log.reverse
    | (true, s) =>
      match s.evaluate with
      | (.ok v, s) => ⟨0, v.render ++ "\n", "", s.log.reverse⟩
      | (.error e, s) => failure e.message s.log.reverse

end ChartLisp.CommandLine
