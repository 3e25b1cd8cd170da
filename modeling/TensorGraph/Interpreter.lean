import TensorGraph.Memory

/-!
The interpreter walks a function's nodes in order and keeps every value. Saves are set aside
and left in their placeholders once every node has run, so a function that reads a
placeholder it also saves reads what was there before.
-/

namespace TensorGraph.Interpreter

structure Walk where
  /-- A value for each node gone through; saves have none. -/
  values : List (Option Value)
  saves : List (Placeholder × Value)

def Walk.start : Walk := ⟨[], []⟩

/-- The value of an operand of `n`. -/
def Walk.operand (w : Walk) (n : Node) (x : NodeId) : Except Error Value :=
  match w.values[x]? with
  | some (some v) => .ok v
  | _ => .error (.valueNotComputed n.name x)

def step (μ : Memory) (w : Walk) (n : Node) : Except Error Walk :=
  match n.op with
  | .input p => do
    let t ← μ.context.load p
    return { w with values := w.values ++ [some (μ.store.read t)] }
  | .save x p => do
    let v ← (← w.operand n x).duplicate
    return ⟨w.values ++ [none], w.saves ++ [(p, v)]⟩
  | op => do
    let args ← op.operands.mapM (w.operand n)
    let v ← op.evaluate μ.store args n.ty
    return { w with values := w.values ++ [some v] }

/-- Goes through all nodes without touching memory. -/
def walk (f : Function) (μ : Memory) : Except Error Walk := f.nodes.foldlM (step μ) .start

def run (f : Function) : Run Unit := do
  let w ← walk f (← get)
  w.saves.forM fun (p, v) => Run.deliver p v

end TensorGraph.Interpreter
