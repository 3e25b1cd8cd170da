import TensorGraph.Graph.Function

/-!
Constant folding: an operation all of whose operands are constants becomes a constant, held
in a new cell. The node keeps its name, its place and its type.
-/

namespace TensorGraph

def Node.constant? (n : Node) : Option Tensor :=
  match n.op with
  | .constant t => some t
  | _ => none

/-- Whether the operation computes something from operands. -/
def Op.isComputation {ι : Type} (op : Op ι) : Bool := !op.isSave && !op.operands.isEmpty

/-- Folds a node that follows the nodes `done`; `none` if it stays as it is. -/
def foldNode (done : List Node) (n : Node) : StoreM (Option Node) :=
  if n.op.isComputation then
    match n.op.operands.mapM fun x => done[x]?.bind Node.constant? with
    | some args => do
      let t ← n.op.compute args n.ty
      return some { n with op := .constant t }
    | none => return none
  else return none

namespace Function

/-- The function with constants folded, and how many nodes became constants. -/
def foldConstants (f : Function) : StoreM (Function × Nat) := do
  let (nodes, folded) ← f.nodes.foldlM (fun (done, folded) n => do
    match ← foldNode done n with
    | some n => return (done ++ [n], folded + 1)
    | none => return (done ++ [n], folded)) ([], 0)
  return ({ f with nodes }, folded)

end Function
end TensorGraph
