import ChartLisp.Double

/-!
# Why an evaluation fails

* `TypeFault`, `ArgumentFault`, `FormFault`  what is wrong with an argument or a special form
* `EvalError`                                the causes, with the procedure or name they concern
* `EvalError.message`                        their wording

Expressions enter a fault by their rendering, so two failures that read the same are the same.
-/

namespace ChartLisp

def depthLimit : Nat := 128

inductive TypeFault where
  | notNumeric (shown : String)
  | notNumber (shown : String)
  | notComplex (shown : String)
  | notList (shown : String)
  | notPoint (shown : String)
  | notBounds (shown : String)
  | firstNotProcedure
  | secondNotList
  | firstNotString
  | sampledOther (shown : String)
deriving DecidableEq

/-- an argument of the right kind with a value that cannot be used -/
inductive ArgumentFault where
  | negative (x : Double)
  | emptyList
  | unboundedRange
  | reversedRange (low high : Double)
  | stepNotPositive (step : Double)
  | stepTooSmall (step value : Double)
  | countTooLarge (count : Nat)
  | notPair (shown : String)
  | keyNotString (shown : String)
  | valueNotString (key : String)
  | unknownOption (key : String)
  | notFinite (x y : Double)
  | noData
  | reversedBounds (lower upper : Double)
deriving DecidableEq

inductive FormFault where
  | empty
  | argumentCount (expected got : Nat)
  | firstNotSymbol
  | parametersNotSymbols
  | parameterNotSymbol (shown : String)
  | duplicateParameter (name : String)
deriving DecidableEq

inductive EvalError where
  | unbound (name : String)
  | notProcedure (shown : String)
  | argumentCount (procedure : String)
  | wrongType (procedure : String) (fault : TypeFault)
  | unusable (procedure : String) (fault : ArgumentFault)
  | reservedForm (name : String)
  | builtin (name : String)
  | alreadyBound (name : String)
  | malformed (form : String) (fault : FormFault)
  | noProgram
  | tooDeep
  | interrupted
  /-- an argument was asked for behind the last one -/
  | outOfBounds (length index : Nat)
deriving DecidableEq

open Double (text)

def TypeFault.message : TypeFault → String
  | .notNumeric s => "expected a numeric argument, got " ++ s
  | .notNumber s => "expected a Number, got " ++ s
  | .notComplex s => "expected a Complex, got " ++ s
  | .notList s => "expected a list, got " ++ s
  | .notPoint s => s ++ " is not a point"
  | .notBounds s => "bounds " ++ s ++ " are not a (lower upper) pair"
  | .firstNotProcedure => "first argument must be a procedure"
  | .secondNotList => "second argument must be a list"
  | .firstNotString => "first argument must be a String"
  | .sampledOther s => "procedure returned " ++ s ++ ", expected a Number"

def ArgumentFault.message : ArgumentFault → String
  | .negative x => text x ++ " is negative"
  | .emptyList => "argument is an empty list"
  | .unboundedRange => "bounds must be finite"
  | .reversedRange a b => "begin " ++ text a ++ " is greater than end " ++ text b
  | .stepNotPositive s => "increment " ++ text s ++ " is not positive"
  | .stepTooSmall s v => "increment " ++ text s ++ " is too small to advance past " ++ text v
  | .countTooLarge n => toString n ++ " is too large to be represented exactly"
  | .notPair s => "option " ++ s ++ " is not a (key value) pair"
  | .keyNotString s => "option key " ++ s ++ " is not a String"
  | .valueNotString k => "value of option \"" ++ k ++ "\" is not a String"
  | .unknownOption k => "unknown option \"" ++ k ++ "\""
  | .notFinite x y => "point (" ++ text x ++ ", " ++ text y ++ ") is not finite"
  | .noData => "no data to plot"
  | .reversedBounds a b =>
    "lower bound " ++ text a ++ " must be less than upper bound " ++ text b

def FormFault.message : FormFault → String
  | .empty => "expected at least one expression"
  | .argumentCount expected got =>
    "expected " ++ toString expected ++ " arguments, got " ++ toString got
  | .firstNotSymbol => "first argument must be a symbol"
  | .parametersNotSymbols => "parameters must be symbols"
  | .parameterNotSymbol s => "parameter '" ++ s ++ "' is not a symbol"
  | .duplicateParameter s => "duplicate parameter '" ++ s ++ "'"

namespace EvalError

def during : String := "Error during evaluation: "

def inCall (procedure : String) : String := "Error in call to " ++ procedure ++ ": "

def redefinition : String := during ++ "attempt to redefine the "

def message : EvalError → String
  | .unbound s => during ++ "unknown symbol '" ++ s ++ "'."
  | .notProcedure s => during ++ "'" ++ s ++ "' does not name a procedure."
  | .argumentCount p => inCall p ++ "invalid number of arguments."
  | .wrongType p f => inCall p ++ f.message ++ "."
  | .unusable p f => inCall p ++ "invalid argument: " ++ f.message ++ "."
  | .reservedForm s => redefinition ++ "special-form '" ++ s ++ "'."
  | .builtin s => redefinition ++ "built-in procedure '" ++ s ++ "'."
  | .alreadyBound s => redefinition ++ "previously defined symbol '" ++ s ++ "'."
  | .malformed f d => "Error during evaluation of " ++ f ++ ": " ++ d.message ++ "."
  | .noProgram => "Error: Invalid Program. Could not parse."
  | .tooDeep =>
    during ++ "maximum evaluation depth of " ++ toString depthLimit ++ " exceeded."
  | .interrupted => "Error: interpreter kernel interrupted"
  | .outOfBounds n i =>
    "index out of bounds: the len is " ++ toString n ++ " but the index is " ++ toString i

end EvalError

end ChartLisp
