import ChartLisp.Builtin.Arguments
import ChartLisp.Plot.Extent

/-!
# Plot options

An options list holds pairs of a key and a value: a title, a label for either axis, or the scale of
all texts.

* `Setting`           one pair
* `Setting.read`      the pair an expression is
* `Options`           captions in their order, and the text scale
* `Options.ofSettings`  of several text scales the first counts; without one it is `1`
* `Options.captions`  the captions as primitives around an extent
-/

namespace ChartLisp.Plot

def captionGap : Double := 3

def quarterTurn : Double := -1.5707963267948966

inductive Side where
  | title
  | abscissa
  | ordinate
deriving DecidableEq

namespace Side

def key : Side → String
  | .title => "title"
  | .abscissa => "abscissa-label"
  | .ordinate => "ordinate-label"

def ofKey? (s : String) : Option Side := [title, abscissa, ordinate].find? (·.key = s)

end Side

structure Caption where
  side : Side
  text : String
deriving DecidableEq

inductive Setting where
  | caption (c : Caption)
  | textScale (scale : Double)
deriving DecidableEq

namespace Setting

def scaleKey : String := "text-scale"

/-- the setting of a key; that its value is a string is asked before whether the key is known -/
def ofKey (procedure key : String) (value : Expr) : Except EvalError Setting :=
  if key = scaleKey then do return .textScale (← Argument.number procedure value)
  else
    match value.string?, Side.ofKey? key with
    | none, _ => .error (.unusable procedure (.valueNotString key))
    | some _, none => .error (.unusable procedure (.unknownOption key))
    | some text, some side => .ok (.caption ⟨side, text⟩)

def read (procedure : String) (e : Expr) : Except EvalError Setting := do
  match ← Argument.elements procedure e with
  | [key, value] =>
    match key.string? with
    | some k => ofKey procedure k value
    | none => .error (.unusable procedure (.keyNotString key.render))
  | _ => .error (.unusable procedure (.notPair e.render))

def caption? : Setting → Option Caption
  | .caption c => some c
  | .textScale _ => none

def textScale? : Setting → Option Double
  | .caption _ => none
  | .textScale s => some s

end Setting

structure Options where
  captionList : List Caption
  textScale : Double
deriving DecidableEq

namespace Options

def ofSettings (settings : List Setting) : Options :=
  ⟨settings.filterMap Setting.caption?, (settings.findSome? Setting.textScale?).getD 1⟩

def default : Options := ⟨[], 1⟩

def read (procedure : String) (e : Expr) : Except EvalError Options := do
  let settings ← (← Argument.elements procedure e).mapM (Setting.read procedure)
  return ofSettings settings

/-- one caption: the title above, the x label below, the y label upright on the left -/
def captionAt (b : Extent) (scale : Double) (c : Caption) : Expr :=
  let xMid := Double.midpoint b.left b.right
  let yMid := Double.midpoint b.top b.bottom
  match c.side with
  | .title => label c.text (place xMid (b.top - captionGap)) scale 0
  | .abscissa => label c.text (place xMid (b.bottom + captionGap)) scale 0
  | .ordinate => label c.text (place (b.left - captionGap) yMid) scale quarterTurn

def captions (o : Options) (b : Extent) : List Expr := o.captionList.map (captionAt b o.textScale)

end Options

end ChartLisp.Plot
