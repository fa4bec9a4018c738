/-!
# Built-in procedures

* `Builtin`          the procedures, in the order in which they are listed
* `Builtin.name`     what a program calls them
* `Builtin.accepts`  the argument counts they take
-/

namespace ChartLisp

inductive Builtin where
  | add | subtract | multiply | divide | power | sqrt
  | ln | sin | cos | tan
  | real | imag | mag | arg | conj
  | list | first | rest | length | append | join | range
  | discretePlot
deriving DecidableEq

namespace Builtin

def name : Builtin → String
  | .add => "+"
  | .subtract => "-"
  | .multiply => "*"
  | .divide => "/"
  | .power => "^"
  | .sqrt => "sqrt"
  | .ln => "ln"
  | .sin => "sin"
  | .cos => "cos"
  | .tan => "tan"
  | .real => "real"
  | .imag => "imag"
  | .mag => "mag"
  | .arg => "arg"
  | .conj => "conj"
  | .list => "list"
  | .first => "first"
  | .rest => "rest"
  | .length => "length"
  | .append => "append"
  | .join => "join"
  | .range => "range"
  | .discretePlot => "discrete-plot"

def accepts (b : Builtin) (n : Nat) : Bool :=
  match b with
  | .add | .multiply | .list => true
  | .subtract | .divide | .discretePlot => n = 1 || n = 2
  | .power | .append | .join => n = 2
  | .range => n = 3
  | _ => n = 1

def all : List Builtin :=
  [.add, .subtract, .multiply, .divide, .power, .sqrt, .ln, .sin, .cos, .tan, .real, .imag, .mag,
    .arg, .conj, .list, .first, .rest, .length, .append, .join, .range, .discretePlot]

def ofName? (s : String) : Option Builtin := all.find? (·.name = s)

end Builtin

end ChartLisp
