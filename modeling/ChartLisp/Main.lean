import ChartLisp.CommandLine

/-!
# The executable

Reads the program that the arguments name, runs it once, and writes what that gives.
-/

namespace ChartLisp.CommandLine

def readAll (stream : IO.FS.Stream) : IO ByteArray := do
  let mut seen := ByteArray.empty
  repeat
    let chunk ← stream.read 65536
    if chunk.isEmpty then break
    seen := seen ++ chunk
  return seen

def readFile (path : String) : IO Input := do
  match ← (IO.FS.Handle.mk path .read).toBaseIO with
  | .error _ => return .missing path
  | .ok handle =>
    match ← handle.readBinToEnd.toBaseIO with
    | .error _ => return .unreadable
    | .ok content => return .bytes content

def Source.fetch : Source → IO Input
  | .standardInput => do return .bytes (← readAll (← IO.getStdin))
  | .file path => readFile path
  | .expression text => return .bytes text.toUTF8

def showLog (log : List Event) : IO Unit := do
  for v in log do
    if v.level = .debug then IO.eprintln ("[" ++ v.level.name ++ "] " ++ v.message)

end ChartLisp.CommandLine

open ChartLisp.CommandLine in
/-- evaluates one program; arguments that do not fit end with the status `2` -/
def main (args : List String) : IO UInt32 := do
  match Arguments.parse? args with
  | none =>
    IO.eprintln "Usage: chartlisp [--debug] [FILE | --expression EXPRESSION]"
    return 2
  | some a =>
    let out := run (← a.source.fetch)
    if a.debug then showLog out.log
    IO.print out.stdout
    IO.eprint out.stderr
    return out.code.toUInt32
