import TensorGraph.Memory
import TensorGraph.Tape.Kernel
import TensorGraph.Tape.Plan

/-!
The machine that runs a tape over a table of buffers. Stores are set aside and left in their
placeholders once the whole tape has run.
-/

namespace TensorGraph.Tape

structure Machine where
  slots : List (Option Buffer)
  stores : List (Placeholder × Buffer)

namespace Machine

def start (plan : Plan) : Machine := ⟨plan.slotTypes.map fun _ => none, []⟩

def read (s : Machine) (slot : Slot) : Except Error Buffer :=
  match s.slots[slot]? with
  | some (some buffer) => .ok buffer
  | _ => .error (.emptySlot slot)

/-- What an instruction writes, given the buffer its destination held. -/
def result (plan : Plan) (threshold : Nat) (μ : Memory) (s : Machine) (dst : Slot)
    (old : Buffer) (i : Instruction) : Except Error Buffer :=
  let kind := (plan.slotTypes[dst]?.map (·.kind)).getD .float
  match i with
  | .loadInput p _ => return (μ.store.read (← μ.context.load p)).data
  | .loadConstant index _ =>
    return (plan.constants[index]?.map fun (_, t) => (μ.store.read t).data).getD #[]
  | .unary f src _ => return Kernel.unary f kind old (← s.read src)
  | .binary f lhs rhs _ => return Kernel.binary f.apply kind old (← s.read lhs) (← s.read rhs)
  | .addRelu lhs rhs _ =>
    return Kernel.binary Kernel.addRelu kind old (← s.read lhs) (← s.read rhs)
  | .matmul lhs rhs _ m k n => do
    Kernel.matmul threshold m k n kind old (← s.read lhs) (← s.read rhs)
  | .reshape src _ => s.read src
  | .transpose src _ rows cols => do Kernel.transpose rows cols old (← s.read src)
  | .store .. | .free _ => return old

/-- One instruction. Its destination is emptied before its operands are read. -/
def step (plan : Plan) (threshold : Nat) (μ : Memory) (s : Machine) (i : Instruction) :
    Except Error Machine :=
  match i with
  | .free slot => return { s with slots := s.slots.set slot none }
  | .store src p => return { s with stores := s.stores ++ [(p, ← s.read src)] }
  | _ =>
    match i.writes? with
    | none => return s
    | some dst => do
      let old := (s.slots[dst]?.join).getD #[]
      let emptied := { s with slots := s.slots.set dst none }
      let buffer ← result plan threshold μ emptied dst old i
      return { s with slots := s.slots.set dst (some buffer) }

end Machine

def execute (plan : Plan) (threshold : Nat) (μ : Memory) : Except Error Machine :=
  plan.instructions.foldlM (Machine.step plan threshold μ) (.start plan)

def run (plan : Plan) (threshold : Nat) : Run Unit := do
  let s ← execute plan threshold (← get)
  s.stores.forM fun (p, data) => Run.deliverElements p data

end TensorGraph.Tape
