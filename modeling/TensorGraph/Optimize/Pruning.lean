import TensorGraph.Graph.Function

/-!
Dead code: nodes from which no save is reached are dropped, and the others are renumbered
in order.
-/

namespace TensorGraph

/-- For nodes standing from position `id` on: which reach a save, and what those read. -/
def liveNodes (id : NodeId) : List Node → List Bool × List NodeId
  | [] => ([], [])
  | n :: rest =>
    let (flags, read) := liveNodes (id + 1) rest
    if n.op.isSave || read.contains id then (true :: flags, n.op.operands ++ read)
    else (false :: flags, read)

namespace Function

def live (f : Function) : List Bool := (liveNodes 0 f.nodes).1

/-- Keeps the flagged nodes. A kept node moves up by the number of nodes dropped before it. -/
def retain (f : Function) (keep : List Bool) : Function :=
  let position (x : NodeId) := (keep.take x).count true
  let kept := (f.nodes.zip keep).filter (·.2)
  { f with nodes := kept.map fun (n, _) => n.rename position }

/-- The function without dead nodes, and how many were dropped. -/
def prune (f : Function) : Function × Nat :=
  let pruned := f.retain f.live
  (pruned, f.size - pruned.size)

end Function
end TensorGraph
