import TensorGraph.Graph.Placeholder
import TensorGraph.Tensor.Matrix
import TensorGraph.Tensor.Store

/-!
Operations with their operands. In a graph an operand is the position of an earlier node;
`Op Unit` is an operation whose operands are given separately.
-/

namespace TensorGraph

inductive Op (ι : Type) where
  /-- The tensor bound to a placeholder. -/
  | input (source : Placeholder)
  | constant (tensor : Tensor)
  | unary (f : Unary) (x : ι)
  | binary (f : Binary) (x y : ι)
  | matmul (x y : ι)
  /-- The target shape is the node's. -/
  | reshape (x : ι)
  | transpose (x : ι)
  /-- A sum cut off below zero; only the optimizer makes these. -/
  | addRelu (x y : ι)
  /-- Leaves a value in a placeholder. -/
  | save (x : ι) (target : Placeholder)
  deriving DecidableEq, Repr

namespace Op

variable {ι κ : Type}

def kind : Op ι → OpKind
  | input _ => .input
  | constant _ => .constant
  | unary f _ => .unary f
  | binary f _ _ => .binary f
  | matmul _ _ => .matmul
  | reshape _ => .reshape
  | transpose _ => .transpose
  | addRelu _ _ => .addRelu
  | save _ _ => .save

def operands : Op ι → List ι
  | input _ | constant _ => []
  | unary _ x | reshape x | transpose x | save x _ => [x]
  | binary _ x y | matmul x y | addRelu x y => [x, y]

def map (g : ι → κ) : Op ι → Op κ
  | input p => input p
  | constant t => constant t
  | unary f x => unary f (g x)
  | binary f x y => binary f (g x) (g y)
  | matmul x y => matmul (g x) (g y)
  | reshape x => reshape (g x)
  | transpose x => transpose (g x)
  | addRelu x y => addRelu (g x) (g y)
  | save x p => save (g x) p

def placeholder? : Op ι → Option Placeholder
  | input p | save _ p => some p
  | _ => none

def source? : Op ι → Option Placeholder
  | input p => some p
  | _ => none

def target? : Op ι → Option Placeholder
  | save _ p => some p
  | _ => none

def isSave : Op ι → Bool
  | save .. => true
  | _ => false

/-- The value computed from the operands' values. Reading and saving placeholders is not a
computation. -/
def evaluate (op : Op ι) (σ : Store) (args : List Value) (ty : TensorType) :
    Except Error Value := do
  let arg (i : Nat) : Except Error Value :=
    match args[i]? with
    | some v => .ok v
    | none => .error (.missingArgument op.kind (i + 1) args.length)
  match op with
  | input p | save _ p => throw (.needsContext op.kind p.name)
  | constant t => return σ.read t
  | unary f _ => (← arg 0).unary f
  | binary f _ _ => Value.binary f (← arg 0) (← arg 1)
  | matmul _ _ => Value.matmul (← arg 0) (← arg 1)
  | reshape _ => (← arg 0).reshape ty.shape
  | transpose _ => (← arg 0).transpose
  | addRelu _ _ => Value.addRelu (← arg 0) (← arg 1)

/-- `evaluate` on tensors. A constant is its own result; anything else gets a new cell. -/
def compute (op : Op ι) (args : List Tensor) (ty : TensorType) : StoreM Tensor := do
  match op with
  | constant t => return t
  | _ =>
    let σ ← get
    Tensor.new (← op.evaluate σ (args.map σ.read) ty)

@[simp] theorem kind_map (g : ι → κ) (op : Op ι) : (op.map g).kind = op.kind := by
  cases op <;> rfl

@[simp] theorem operands_map (g : ι → κ) (op : Op ι) :
    (op.map g).operands = op.operands.map g := by
  cases op <;> rfl

@[simp] theorem placeholder?_map (g : ι → κ) (op : Op ι) :
    (op.map g).placeholder? = op.placeholder? := by
  cases op <;> rfl

@[simp] theorem map_id (op : Op ι) : op.map id = op := by cases op <;> rfl

theorem length_operands (op : Op ι) : op.operands.length = op.kind.arity := by
  cases op <;> rfl

end Op
end TensorGraph
