import TensorGraph.Error

/-! The kinds of backends the library brings along. -/

namespace TensorGraph

inductive BackendKind where
  | interpreter
  | cpu
  deriving DecidableEq, Repr, Inhabited

namespace BackendKind

def name : BackendKind → String
  | interpreter => "interpreter"
  | cpu => "cpu"

/-- Reads a kind by either of its names, in any case of letters. -/
def parse (text : String) : Except Error BackendKind :=
  let lower := text.map Char.toLower
  if lower = "interpreter" || lower = "interp" then .ok interpreter
  else if lower = "cpu" || lower = "native" then .ok cpu
  else .error (.unknownBackendKind lower)

end BackendKind

end TensorGraph
