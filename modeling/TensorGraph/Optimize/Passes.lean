import TensorGraph.Optimize.Folding
import TensorGraph.Optimize.Fusion
import TensorGraph.Optimize.Merging
import TensorGraph.Optimize.Pruning

/-!
The optimizer: folding, merging, fusion for inference only, and pruning, each once and in
this order.
-/

namespace TensorGraph

/-- What a function is compiled for. Training keeps operations apart. -/
inductive Mode where
  | infer
  | train
  deriving DecidableEq, Repr, Inhabited

namespace Mode

def name : Mode → String
  | infer => "infer"
  | train => "train"

def isTraining : Mode → Bool
  | infer => false
  | train => true

end Mode

/-- How many nodes each pass changed. -/
structure PassCounts where
  folded : Nat := 0
  merged : Nat := 0
  fused : Nat := 0
  removed : Nat := 0
  deriving DecidableEq, Repr

def PassCounts.render (s : PassCounts) : String :=
  s!"{s.folded} folded, {s.merged} merged, {s.fused} fused, {s.removed} removed"

inductive Pass where
  | fold
  | merge
  | fuse
  | prune
  deriving DecidableEq, Repr

/-- The function after the pass and how many nodes the pass changed. -/
def Pass.apply (pass : Pass) (f : Function) : StoreM (Function × Nat) :=
  match pass with
  | fold => f.foldConstants
  | merge => return f.mergeCommon
  | fuse => return f.fuseAddRelu
  | prune => return f.prune

def Function.optimize (f : Function) (mode : Mode) :
    StoreM (Function × PassCounts) := do
  f.verify
  let (f, folded) ← f.foldConstants
  let (f, merged) := f.mergeCommon
  let (f, fused) := if mode.isTraining then (f, 0) else f.fuseAddRelu
  let (f, removed) := f.prune
  return (f, { folded, merged, fused, removed })

end TensorGraph
