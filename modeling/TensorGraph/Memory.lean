import TensorGraph.Graph.Module
import TensorGraph.Table

/-!
What a run may read and change: tensor storage and the caller's bindings of placeholders to
tensors. A binding holds a handle, so a write through it reaches everyone who shares it.
-/

namespace TensorGraph

/-- Which tensor each placeholder is bound to. -/
abbrev Context := Table PlaceholderId Tensor

structure Memory where
  store : Store
  context : Context
  deriving DecidableEq, Repr

/-- A computation on memory. What was done before an error stays done. -/
abbrev Run := EStateM Error Memory

/-- Works on the storage alone. -/
instance : MonadLift StoreM Run where
  monadLift x μ :=
    match x μ.store with
    | .ok a σ => .ok a { μ with store := σ }
    | .error e σ => .error e { μ with store := σ }

namespace Context

/-- The tensor bound to `p`, which has to be of the placeholder's type. -/
def load (c : Context) (p : Placeholder) : Except Error Tensor := do
  match c.get? p.id with
  | none => throw (.unboundPlaceholder p.name)
  | some t =>
    p.ty.expectEq t.ty
    return t

/-- The tensor bound to `p` if it is of the placeholder's type. -/
def matching? (c : Context) (p : Placeholder) : Option Tensor :=
  (c.get? p.id).filter (·.ty = p.ty)

end Context

namespace Run

def bindTo (p : PlaceholderId) (t : Tensor) : Run Unit :=
  modify fun μ => { μ with context := μ.context.insert p t }

/-- The tensor bound to `p`; one of zeros is bound first if the placeholder's type is not met. -/
def allocate (p : Placeholder) : Run Tensor := do
  match (← get).context.matching? p with
  | some t => return t
  | none =>
    let t ← Tensor.new (← Value.zeros p.ty)
    bindTo p.id t
    return t

/-- Allocates every placeholder of a module. -/
def allocateAll (m : Module) : Run Unit := m.placeholders.forM fun p => discard (allocate p)

/-- Leaves a value in `p`. A binding of the placeholder's type is written in place, so that
everyone who shares it sees the result; otherwise a private copy is bound. -/
def deliver (p : Placeholder) (v : Value) : Run Unit := do
  match (← get).context.matching? p with
  | some t =>
    t.ty.expectEq v.ty
    t.update v.data
  | none => bindTo p.id (← Tensor.new (← v.duplicate))

/-- Leaves plain elements in `p`, bound by the same rule. -/
def deliverElements (p : Placeholder) (data : Array Binary64) : Run Unit := do
  match (← get).context.matching? p with
  | some t => t.update data
  | none => bindTo p.id (← Tensor.new (← Value.ofData data p.ty.shape p.ty.kind))

end Run
end TensorGraph
