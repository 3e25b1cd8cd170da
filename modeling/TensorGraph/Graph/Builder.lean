import TensorGraph.Graph.Function

/-!
Building functions. Each step checks its operands, appends one node and returns the node's
position; a step that fails appends nothing.
-/

namespace TensorGraph

abbrev Builder := EStateM Error Function

namespace Builder

def append (name : String) (op : Op NodeId) (ty : TensorType) : Builder NodeId :=
  modifyGet fun f => (f.nodes.length, { f with nodes := f.nodes ++ [⟨name, op, ty⟩] })

def typeOf (id : NodeId) : Builder TensorType := do (← get).typeOf id

/-- Only placeholders of the function's own module may be read or written. -/
def checkOwner (p : Placeholder) : Builder Unit := do
  if p.id.owner ≠ (← get).owner then throw (.unknownPlaceholder p.name)

/-- Reads a placeholder. The node takes the placeholder's name. -/
def input (p : Placeholder) : Builder NodeId := do
  checkOwner p
  append p.name (.input p) p.ty

def constant (name : String) (t : Tensor) : Builder NodeId :=
  append name (.constant t) t.ty

def unary (name : String) (f : Unary) (x : NodeId) : Builder NodeId := do
  append name (.unary f x) (← typeOf x)

def binary (name : String) (f : Binary) (x y : NodeId) : Builder NodeId := do
  let left ← typeOf x
  let right ← typeOf y
  left.expectEq right
  append name (.binary f x y) left

def matmul (name : String) (x y : NodeId) : Builder NodeId := do
  let left ← typeOf x
  let right ← typeOf y
  if left.kind ≠ right.kind then throw (.elementKindMismatch left.kind right.kind)
  let (m, k) ← left.shape.matrixDims
  let (k', n) ← right.shape.matrixDims
  if k ≠ k' then throw (.matmulShapeMismatch m k k' n)
  append name (.matmul x y) ⟨left.kind, .matrix m n⟩

def reshape (name : String) (x : NodeId) (shape : Shape) : Builder NodeId := do
  let ty ← typeOf x
  shape.validate
  shape.expectCount (← ty.shape.elements)
  append name (.reshape x) ⟨ty.kind, shape⟩

def transpose (name : String) (x : NodeId) : Builder NodeId := do
  let ty ← typeOf x
  let (rows, cols) ← ty.shape.matrixDims
  append name (.transpose x) ⟨ty.kind, .matrix cols rows⟩

/-- Saves a value into a placeholder that the function does not save yet. -/
def save (name : String) (x : NodeId) (p : Placeholder) : Builder NodeId := do
  checkOwner p
  p.ty.expectEq (← typeOf x)
  let f ← get
  if f.outputs.any (·.id = p.id) then throw (.alreadySaved p.name f.name)
  append name (.save x p) p.ty

end Builder
end TensorGraph
