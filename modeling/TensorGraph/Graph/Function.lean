import TensorGraph.Graph.Op

/-!
Functions: named lists of nodes. A node is known by its position, and the operands of a
node come before it, so the list order is an order of execution.
-/

namespace TensorGraph

abbrev NodeId := Nat

structure Node where
  name : String
  op : Op NodeId
  ty : TensorType
  deriving DecidableEq, Repr

def Node.kind (n : Node) : OpKind := n.op.kind

def Node.rename (g : NodeId → NodeId) (n : Node) : Node := { n with op := n.op.map g }

structure Function where
  name : String
  owner : ModuleId
  nodes : List Node
  deriving DecidableEq, Repr

namespace Function

def empty (name : String) (owner : ModuleId) : Function := ⟨name, owner, []⟩

def size (f : Function) : Nat := f.nodes.length

def typeOf (f : Function) (id : NodeId) : Except Error TensorType :=
  match f.nodes[id]? with
  | some n => .ok n.ty
  | none => .error (.noSuchNode id f.name)

/-- The placeholders read, each once, in the order of first reading. -/
def inputs (f : Function) : List Placeholder :=
  Placeholder.distinct (f.nodes.filterMap (·.op.source?))

/-- The placeholders written, in node order. -/
def outputs (f : Function) : List Placeholder := f.nodes.filterMap (·.op.target?)

def countKind (f : Function) (kind : OpKind) : Nat := f.nodes.countP (·.kind = kind)

def verifyNode (f : Function) (saved : List PlaceholderId) (id : NodeId) (n : Node) :
    Except Error (List PlaceholderId) :=
  match n.op.operands.find? (id ≤ ·) with
  | some operand => .error (.operandNotBefore n.name id f.name operand)
  | none =>
    match n.op with
    | .save _ p =>
      if p.id ∈ saved then .error (.savedTwice p.name f.name) else .ok (p.id :: saved)
    | _ => .ok saved

/-- Checks that operands come first and that saves have distinct targets. -/
def verify (f : Function) : Except Error Unit := do
  let _ ← f.nodes.zipIdx.foldlM (fun saved (n, id) => f.verifyNode saved id n) []

end Function

def Node.describe (id : NodeId) (n : Node) : String :=
  let operands := String.intercalate ", " (n.op.operands.map fun x => s!"%{x}")
  let shown :=
    match n.op with
    | .input p => " @" ++ p.name
    | .save _ p => " " ++ operands ++ " -> @" ++ p.name
    | op => if op.operands.isEmpty then "" else " " ++ operands
  s!"  %{id} = {n.kind.name}{shown} : {n.ty.render}  // {n.name}\n"

/-- The function as text, a line for each node. -/
def Function.dump (f : Function) : String :=
  let body := String.join (f.nodes.zipIdx.map fun (n, id) => n.describe id)
  s!"function {f.name} \x7b\n" ++ body ++ "\x7d"

end TensorGraph
