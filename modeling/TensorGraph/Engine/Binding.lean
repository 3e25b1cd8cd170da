import TensorGraph.Memory

/-!
Binding lists of tensors. Each placeholder gets the handle given for it, so the storage is
shared. Types are checked later, when a run reads the binding.
-/

namespace TensorGraph.Context

/-- Binds tensors to placeholders one by one; of a repeated placeholder the last counts. -/
def bindAll (c : Context) (placeholders : List Placeholder) (tensors : List Tensor) :
    Except Error Context :=
  if placeholders.length = tensors.length then
    .ok ((placeholders.zip tensors).foldl (fun c (p, t) => c.insert p.id t) c)
  else .error (.arityMismatch "bind_placeholders" placeholders.length tensors.length)

/-- Binds by name. Nothing is bound unless every name is declared. -/
def bindNamed (c : Context) (m : Module) (names : List String) (tensors : List Tensor) :
    Except Error Context := do
  c.bindAll (← names.mapM m.placeholderNamed) tensors

end TensorGraph.Context
