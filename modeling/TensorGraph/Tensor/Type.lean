import TensorGraph.Tensor.Element
import TensorGraph.Tensor.Shape

/-! Tensor types: what a placeholder expects and what a tensor must have to be bound to it. -/

namespace TensorGraph

structure TensorType where
  kind : ElementKind
  shape : Shape
  deriving DecidableEq, Repr

namespace TensorType

def count (ty : TensorType) : Nat := ty.shape.count

def sizeInBytes (ty : TensorType) : Nat := ty.shape.count * ty.kind.size

def render (ty : TensorType) : String :=
  ty.kind.name ++ "<" ++ ty.shape.render ++ ">"

end TensorType
end TensorGraph
