import TensorGraph.Executable

/-! Compiled functions by name. -/

namespace TensorGraph

abbrev Registry := Table String Executable

namespace Registry

def names (r : Registry) : List String := r.keys.mergeSort fun a b => a ≤ b

def lookup (r : Registry) (name : String) : Except Error Executable :=
  match r.get? name with
  | some f => .ok f
  | none => .error (.noSuchFunction name)

def lookupSole (r : Registry) : Except Error Executable :=
  match r.entries with
  | [(_, f)] => .ok f
  | [] => .error (.noSuchFunction "")
  | _ => .error (.ambiguousFunction r.names)

end Registry
end TensorGraph
