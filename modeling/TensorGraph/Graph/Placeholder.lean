import TensorGraph.Tensor.Type

/-!
Placeholders: the named slots through which a function reads and writes tensors. A
placeholder is known by the module that declares it and its place there; two modules may
use one name.
-/

namespace TensorGraph

/-- Told apart from every other module's by whoever creates modules. -/
structure ModuleId where
  number : Nat
  deriving DecidableEq, Repr

structure PlaceholderId where
  owner : ModuleId
  index : Nat
  deriving DecidableEq, Repr

structure Placeholder where
  id : PlaceholderId
  name : String
  ty : TensorType
  /-- Whether training may update the bound tensor. -/
  trainable : Bool
  deriving DecidableEq, Repr

/-- The placeholders of a list, each once, in the order of first appearance. -/
def Placeholder.distinct (ps : List Placeholder) : List Placeholder :=
  ps.foldl (fun found p => if found.any (·.id = p.id) then found else found ++ [p]) []

def Placeholder.render (p : Placeholder) : String := "%" ++ p.name ++ ": " ++ p.ty.render

end TensorGraph
