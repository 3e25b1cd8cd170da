import TensorGraph.Graph.OpKind
import TensorGraph.Number.Transcendental
import TensorGraph.Tensor.Element

/-! What the elementwise operations compute on one element. Coercion comes afterwards. -/

namespace TensorGraph

def relu (v : Binary64) : Binary64 := v.max (.zero false)

def Unary.apply : Unary → Binary64 → Binary64
  | neg, v => -v
  | relu, v => TensorGraph.relu v
  | sigmoid, v => v.sigmoid
  | tanh, v => v.tanh
  | exp, v => v.exp
  | log, v => v.log

def Binary.apply : Binary → Binary64 → Binary64 → Binary64
  | add, a, b => a + b
  | sub, a, b => a - b
  | mul, a, b => a * b
  | div, a, b => a / b
  | max, a, b => a.max b
  | min, a, b => a.min b

/-- Quotients of integer kinds lose their fraction. -/
def Binary.applyAt (f : Binary) (kind : ElementKind) (a b : Binary64) : Binary64 :=
  match f with
  | div => if kind.isFloat then f.apply a b else (f.apply a b).truncate
  | _ => f.apply a b

theorem Binary.applyAt_float {kind : ElementKind} (h : kind.isFloat) (f : Binary)
    (a b : Binary64) : f.applyAt kind a b = f.apply a b := by
  cases f <;> simp [applyAt, h]

end TensorGraph
