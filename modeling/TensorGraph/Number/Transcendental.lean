import TensorGraph.Number.Binary64

/-!
Exponential, logarithm and hyperbolic tangent. Their last bit is the platform's; what is
fixed here is how they meet NaNs.
-/

namespace TensorGraph.Binary64

/-- A platform function between numbers that are not NaNs. -/
def viaPlatform (f : Float → Float) (x : Binary64) : Binary64 :=
  if x.isNaN then x.quiet
  else
    let y := f (Float.ofBits x.toBits)
    if y.isNaN then invalid else ofBits y.toBits

def exp (x : Binary64) : Binary64 := viaPlatform Float.exp x
def log (x : Binary64) : Binary64 := viaPlatform Float.log x
def tanh (x : Binary64) : Binary64 := viaPlatform Float.tanh x

def sigmoid (x : Binary64) : Binary64 := one / (one + exp (-x))

end TensorGraph.Binary64
