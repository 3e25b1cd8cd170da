import TensorGraph.Graph.Op

/-!
Tape instructions. Each one is resolved beforehand: it names the slots it reads and the slot
it writes, never a node.
-/

namespace TensorGraph

abbrev Slot := Nat

inductive Instruction where
  /-- Copies the tensor bound to a placeholder into a slot. -/
  | loadInput (source : Placeholder) (dst : Slot)
  /-- Copies one of the tape's constants into a slot. -/
  | loadConstant (index : Nat) (dst : Slot)
  | unary (f : Unary) (src dst : Slot)
  | binary (f : Binary) (lhs rhs dst : Slot)
  | addRelu (lhs rhs dst : Slot)
  /-- The product of an `m` by `k` and a `k` by `n` matrix. -/
  | matmul (lhs rhs dst : Slot) (m k n : Nat)
  | reshape (src dst : Slot)
  | transpose (src dst : Slot) (rows cols : Nat)
  /-- Sets a slot's elements aside for a placeholder. -/
  | store (src : Slot) (target : Placeholder)
  /-- Releases a slot's buffer. -/
  | free (slot : Slot)
  deriving DecidableEq, Repr

namespace Instruction

def reads : Instruction → List Slot
  | loadInput .. | loadConstant .. | free _ => []
  | unary _ src _ | reshape src _ | transpose src .. | store src _ => [src]
  | binary _ lhs rhs _ | addRelu lhs rhs _ | matmul lhs rhs .. => [lhs, rhs]

def writes? : Instruction → Option Slot
  | loadInput _ dst | loadConstant _ dst | unary _ _ dst | binary _ _ _ dst
  | addRelu _ _ dst | matmul _ _ dst .. | reshape _ dst | transpose _ dst .. => some dst
  | store .. | free _ => none

def touches (i : Instruction) : List Slot := i.reads ++ i.writes?.toList

def isFree : Instruction → Bool
  | free _ => true
  | _ => false

def placeholder? : Instruction → Option Placeholder
  | loadInput p _ | store _ p => some p
  | _ => none

def render : Instruction → String
  | loadInput p dst => s!"load_input @{p.name} -> s{dst}"
  | loadConstant index dst => s!"load_constant c{index} -> s{dst}"
  | unary f src dst => s!"{f.name} s{src} -> s{dst}"
  | binary f lhs rhs dst => s!"{f.name} s{lhs}, s{rhs} -> s{dst}"
  | addRelu lhs rhs dst => s!"add_relu s{lhs}, s{rhs} -> s{dst}"
  | matmul lhs rhs dst m k n => s!"matmul s{lhs}, s{rhs} -> s{dst} [{m}x{k}x{n}]"
  | reshape src dst => s!"reshape s{src} -> s{dst}"
  | transpose src dst rows cols => s!"transpose s{src} -> s{dst} [{rows}x{cols}]"
  | store src p => s!"store s{src} -> @{p.name}"
  | free slot => s!"free s{slot}"

end Instruction
end TensorGraph
