/-!
# Equality up to a tolerance

Numbers are compared with an absolute tolerance of `10 ^ (-7)`.  No infinity and no NaN is near
anything, itself included: the difference is infinite or NaN.
-/

namespace ChartLisp.Number

def tolerance : Float := 1e-7

def near (x y : Float) : Bool := (x - y).abs ≤ tolerance

end ChartLisp.Number
