/-!
# Special forms

Heads that are evaluated by rules of their own.  No program can bind their names.
-/

namespace ChartLisp

inductive Form where
  | begin
  | define
  | lambda
  | apply
  | map
  | setProperty
  | getProperty
  | continuousPlot
deriving DecidableEq

namespace Form

def name : Form → String
  | .begin => "begin"
  | .define => "define"
  | .lambda => "lambda"
  | .apply => "apply"
  | .map => "map"
  | .setProperty => "set-property"
  | .getProperty => "get-property"
  | .continuousPlot => "continuous-plot"

def all : List Form :=
  [.begin, .define, .lambda, .apply, .map, .setProperty, .getProperty, .continuousPlot]

def ofName? (s : String) : Option Form := all.find? (·.name = s)

end Form

end ChartLisp
