import TensorGraph.Bundle.Export
import TensorGraph.Executable
import TensorGraph.Optimize.Passes

/-!
Backends: what turns a function into an executable. The library brings two, and a caller
may supply others.
-/

namespace TensorGraph

structure Backend where
  kind : BackendKind
  supports : OpKind → ElementKind → Bool
  compile : Function → Mode → Except Error Executable
  supportsBundles : Bool := false
  /-- Writes a bundle of the function into a directory under a network name. -/
  save : Store → Function → Mode → Path → String → Export Unit :=
    fun _ _ _ _ _ => throw (.error (.bundleUnsupported kind.name))

namespace Backend

/-- Refuses the first node that is not supported. -/
def requireSupport (kind : BackendKind) (supports : OpKind → ElementKind → Bool)
    (f : Function) : Except Error Unit :=
  match f.nodes.find? fun n => !supports n.kind n.ty.kind with
  | some n =>
    .error (.compilation f.name (.unsupportedOperation kind.name n.kind n.ty.kind n.name))
  | none => .ok ()

/-- Refuses a function that a backend does not support. -/
def check (b : Backend) (f : Function) : Except Error Unit :=
  requireSupport b.kind b.supports f

end Backend

end TensorGraph
