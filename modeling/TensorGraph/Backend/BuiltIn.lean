import TensorGraph.Backend.Cpu
import TensorGraph.Backend.Interpreter

/-! The library's own backends by kind. -/

namespace TensorGraph

def Backend.ofKind : BackendKind → Backend
  | .interpreter => Interpreter.backend
  | .cpu => Cpu.backend {}

end TensorGraph
