import TensorGraph.Graph.Function

/-!
Common subexpressions: readers of a node that repeats an earlier one read the earlier one
instead. The repeated node stays, without readers. Constants and saves are never merged.
-/

namespace TensorGraph

/-- What makes two nodes interchangeable. -/
structure NodeKey where
  kind : OpKind
  operands : List NodeId
  ty : TensorType
  placeholder : Option PlaceholderId
  deriving DecidableEq, Repr

def Node.key? (n : Node) : Option NodeKey :=
  match n.op with
  | .constant _ | .save .. => none
  | op => some ⟨op.kind, op.operands, n.ty, op.placeholder?.map (·.id)⟩

structure Merging where
  /-- The nodes gone through, operands redirected. -/
  done : List Node
  /-- The first node of each key. -/
  seen : List (NodeKey × NodeId)
  redirect : NodeId → NodeId
  merged : Nat

namespace Merging

def start : Merging := ⟨[], [], id, 0⟩

def find? (s : Merging) (key : NodeKey) : Option NodeId :=
  (s.seen.find? (·.1 = key)).map (·.2)

def step (s : Merging) (n : Node) : Merging :=
  let n := n.rename s.redirect
  let here := s.done.length
  let s := { s with done := s.done ++ [n] }
  match n.key? with
  | none => s
  | some key =>
    match s.find? key with
    | some first =>
      { s with
        redirect := fun x => if x = here then first else s.redirect x
        merged := s.merged + 1 }
    | none => { s with seen := (key, here) :: s.seen }

end Merging

/-- The function with repeated nodes unread, and how many were merged. -/
def Function.mergeCommon (f : Function) : Function × Nat :=
  let s := f.nodes.foldl Merging.step .start
  ({ f with nodes := s.done }, s.merged)

end TensorGraph
