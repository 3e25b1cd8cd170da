import TensorGraph.Backend.Kind
import TensorGraph.Interpreter
import TensorGraph.Tape.Machine

/-!
Executables: what compiling a function gives. One may be run any number of times, on any
memory. A failure names the function, once.
-/

namespace TensorGraph

/-- A function ready to run. -/
inductive Executable where
  | interpreted (function : Function)
  | tape (plan : Plan) (threshold : Nat)
  /-- Made by a backend that a caller supplied. -/
  | custom (name : String) (kind : BackendKind) (dump : String) (execute : Run Unit)

namespace Executable

def name : Executable → String
  | interpreted f => f.name
  | tape plan _ => plan.name
  | custom name .. => name

def backendKind : Executable → BackendKind
  | interpreted _ => .interpreter
  | tape .. => .cpu
  | custom _ kind .. => kind

def dump : Executable → String
  | interpreted f => f.dump
  | tape plan _ => plan.dump
  | custom _ _ dump _ => dump

/-- Runs once on the caller's memory: reads inputs, leaves outputs. -/
def execute : Executable → Run Unit
  | interpreted f => (Interpreter.run f).adaptExcept (·.whileRunning f.name)
  | tape plan threshold => (Tape.run plan threshold).adaptExcept (·.whileRunning plan.name)
  | custom _ _ _ execute => execute

end Executable

end TensorGraph
