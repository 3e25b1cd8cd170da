import TensorGraph.Graph.Function
import TensorGraph.Tape.Instruction

/-!
Plans: a function lowered to a tape over reusable slots. A value's slot is released right
after the node that reads it last, and later values of its type take the slot released most
recently. A slot is taken before the operands of the same node are released, so no
instruction writes a slot that it reads.
-/

namespace TensorGraph

structure PlanStats where
  instructions : Nat
  sourceNodes : Nat
  slots : Nat
  /-- Values placed in a slot released before. -/
  reused : Nat
  frees : Nat
  fused : Nat
  deriving DecidableEq, Repr

structure Plan where
  name : String
  instructions : List Instruction
  slotTypes : List TensorType
  /-- Constants under the names of their nodes. -/
  constants : List (String × Tensor)
  stats : PlanStats
  deriving DecidableEq, Repr

def Function.lastUse? (f : Function) (x : NodeId) : Option NodeId :=
  (f.nodes.zipIdx.reverse.find? fun (n, _) => n.op.operands.contains x).map (·.2)

structure Lowering where
  /-- The slot of each node gone through; saves have none. -/
  slotOf : List (Option Slot)
  slotTypes : List TensorType
  /-- Released slots, the most recent first. -/
  released : List (TensorType × Slot)
  constants : List (String × Tensor)
  code : List Instruction
  reused : Nat
  fused : Nat

namespace Lowering

def start : Lowering := ⟨[], [], [], [], [], 0, 0⟩

def operand (s : Lowering) (n : Node) (x : NodeId) : Except Error Slot :=
  match s.slotOf[x]? with
  | some (some slot) => .ok slot
  | _ => .error (.operandHasNoSlot n.name x)

/-- A slot for a value of type `ty`: the latest released one of the type, or a new one. -/
def take (s : Lowering) (ty : TensorType) : Slot × Lowering :=
  match s.released.find? (·.1 = ty) with
  | some entry =>
    (entry.2, { s with released := s.released.erase entry, reused := s.reused + 1 })
  | none => (s.slotTypes.length, { s with slotTypes := s.slotTypes ++ [ty] })

def release (s : Lowering) (ty : TensorType) (slot : Slot) : Lowering :=
  { s with released := (ty, slot) :: s.released }

def emit (s : Lowering) (i : Instruction) : Lowering := { s with code := s.code ++ [i] }

/-- Releases the operands of node `id` that no later node reads. -/
def releaseOperands (f : Function) (id : NodeId) (n : Node) (s : Lowering) : Lowering :=
  n.op.operands.eraseDups.foldl (fun s x =>
    if f.lastUse? x = some id then
      match s.slotOf[x]?, f.nodes[x]? with
      | some (some slot), some source => s.release source.ty slot
      | _, _ => s
    else s) s

/-- Emits the instruction that leaves a node's value in `dst`. -/
def lowerInto (f : Function) (n : Node) (dst : Slot) (s : Lowering) : Except Error Lowering :=
  let slot := s.operand n
  match n.op with
  | .input p => return s.emit (.loadInput p dst)
  | .constant t =>
    return { s with constants := s.constants ++ [(n.name, t)] }.emit
      (.loadConstant s.constants.length dst)
  | .unary g x => return s.emit (.unary g (← slot x) dst)
  | .binary g x y => return s.emit (.binary g (← slot x) (← slot y) dst)
  | .addRelu x y =>
    return { s with fused := s.fused + 1 }.emit (.addRelu (← slot x) (← slot y) dst)
  | .matmul x y => do
    let (m, k) ← (← f.typeOf x).shape.matrixDims
    let cols := n.ty.shape.dims.getD 1 0
    return s.emit (.matmul (← slot x) (← slot y) dst m k cols)
  | .reshape x => return s.emit (.reshape (← slot x) dst)
  | .transpose x => do
    let (cols, rows) ← n.ty.shape.matrixDims
    return s.emit (.transpose (← slot x) dst rows cols)
  | .save x p => return s.emit (.store (← slot x) p)

def step (f : Function) (s : Lowering) (n : Node) : Except Error Lowering := do
  let id := s.slotOf.length
  match n.op with
  | .save x p =>
    let s := s.emit (.store (← s.operand n x) p)
    return releaseOperands f id n { s with slotOf := s.slotOf ++ [none] }
  | _ =>
    let (dst, s) := s.take n.ty
    let s ← lowerInto f n dst s
    let s := { s with slotOf := s.slotOf ++ [some dst] }
    let s := if (f.lastUse? id).isNone then s.release n.ty dst else s
    return releaseOperands f id n s

end Lowering

namespace Tape

/-- The last instruction that touches a slot. -/
def lastTouch? (code : List Instruction) (slot : Slot) : Option Nat :=
  (code.zipIdx.reverse.find? fun (i, _) => i.touches.contains slot).map (·.2)

/-- Releases each slot after the last instruction that touches it, unless that ends the tape. -/
def withFrees (code : List Instruction) (slots : Nat) : List Instruction :=
  code.zipIdx.flatMap fun (i, at_) =>
    let dead := (List.range slots).filter fun slot =>
      lastTouch? code slot = some at_ && at_ + 1 < code.length
    i :: dead.map Instruction.free

end Tape

namespace Plan

def ofFunction (f : Function) : Except Error Plan := do
  let s ← f.nodes.foldlM (Lowering.step f) .start
  let instructions := Tape.withFrees s.code s.slotTypes.length
  return {
    name := f.name
    instructions
    slotTypes := s.slotTypes
    constants := s.constants
    stats := {
      instructions := instructions.length
      sourceNodes := f.nodes.length
      slots := s.slotTypes.length
      reused := s.reused
      frees := instructions.countP (·.isFree)
      fused := s.fused } }

/-- The placeholders read or stored to, each once, in the order of first use. -/
def placeholders (plan : Plan) : List Placeholder :=
  Placeholder.distinct (plan.instructions.filterMap (·.placeholder?))

end Plan

/-- Lowering is not timed, so the duration stands at zero. -/
def PlanStats.render (s : PlanStats) : String :=
  s!"{s.instructions} instructions ({s.sourceNodes} source nodes), " ++
  s!"{s.slots} slots ({s.reused} reused), {s.frees} frees, {s.fused} fused, compiled in 0us"

def Plan.dump (plan : Plan) : String :=
  let line (label shown : String) := "  " ++ label ++ shown ++ "\n"
  let pad (i : Nat) := "".pushn ' ' (3 - (toString i).length) ++ toString i
  String.join <|
    [s!"=== cpu: {plan.name} ===\n{plan.stats.render}\n\n"] ++
    plan.constants.zipIdx.map (fun ((name, t), i) =>
      line s!"c{i} = " s!"{name} : {t.ty.render}") ++
    plan.slotTypes.zipIdx.map (fun (ty, i) => line s!"s{i} : " ty.render) ++
    plan.instructions.zipIdx.map (fun (instr, i) => line s!"[{pad i}] " instr.render)

end TensorGraph
