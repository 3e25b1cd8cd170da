/-!
The operations a graph may hold, without their operands. Backends answer questions of
support by these tags.
-/

namespace TensorGraph

/-- Operations on each element by itself. -/
inductive Unary where
  | neg
  | relu
  | sigmoid
  | tanh
  | exp
  | log
  deriving DecidableEq, Repr

/-- Operations on elements of two tensors at the same position. -/
inductive Binary where
  | add
  | sub
  | mul
  | div
  | max
  | min
  deriving DecidableEq, Repr

inductive OpKind where
  | input
  | constant
  | unary (f : Unary)
  | binary (f : Binary)
  | matmul
  | reshape
  | transpose
  | addRelu
  | save
  deriving DecidableEq, Repr

namespace Unary

def all : List Unary := [relu, sigmoid, tanh, exp, log, neg]

def name : Unary → String
  | neg => "neg"
  | relu => "relu"
  | sigmoid => "sigmoid"
  | tanh => "tanh"
  | exp => "exp"
  | log => "log"

end Unary

namespace Binary

def all : List Binary := [add, sub, mul, div, max, min]

def name : Binary → String
  | add => "add"
  | sub => "sub"
  | mul => "mul"
  | div => "div"
  | max => "max"
  | min => "min"

end Binary

namespace OpKind

def all : List OpKind :=
  [input, constant] ++ Binary.all.map binary ++ [matmul] ++ Unary.all.map unary ++
    [reshape, transpose, addRelu, save]

def name : OpKind → String
  | input => "input"
  | constant => "constant"
  | unary f => f.name
  | binary f => f.name
  | matmul => "matmul"
  | reshape => "reshape"
  | transpose => "transpose"
  | addRelu => "add_relu"
  | save => "save"

def ofName? (text : String) : Option OpKind := all.find? (·.name = text)

def isElementwiseUnary : OpKind → Bool
  | unary _ => true
  | _ => false

/-- Fused operations are not counted as elementwise. -/
def isElementwiseBinary : OpKind → Bool
  | binary _ => true
  | _ => false

/-- How many operands the operation takes. -/
def arity : OpKind → Nat
  | input | constant => 0
  | unary _ | reshape | transpose | save => 1
  | binary _ | matmul | addRelu => 2

theorem mem_all (kind : OpKind) : kind ∈ all := by
  cases kind with
  | unary f => cases f <;> decide
  | binary f => cases f <;> decide
  | _ => decide

theorem ofName?_name (kind : OpKind) : ofName? kind.name = some kind := by
  cases kind with
  | unary f => cases f <;> decide
  | binary f => cases f <;> decide
  | _ => decide

end OpKind
end TensorGraph
