import TensorGraph.Graph.Function

/-!
Fusion: `relu (add a b)` becomes one operation on `a` and `b` where nothing else reads the
sum. Readers are counted before anything is fused, dead ones included.
-/

namespace TensorGraph.Function

/-- How often a node is read. -/
def uses (f : Function) (id : NodeId) : Nat := (f.nodes.flatMap (·.op.operands)).count id

/-- The fused form of a node, if it has one. -/
def fused? (f : Function) (n : Node) : Option Node :=
  match n.op with
  | .unary .relu x =>
    match f.nodes[x]?.map Node.op with
    | some (.binary .add a b) =>
      if f.uses x = 1 then some { n with op := .addRelu a b } else none
    | _ => none
  | _ => none

/-- The function with sums fused into their cut-offs, and how many were. -/
def fuseAddRelu (f : Function) : Function × Nat :=
  ({ f with nodes := f.nodes.map fun n => (f.fused? n).getD n },
    f.nodes.countP fun n => (f.fused? n).isSome)

end TensorGraph.Function
