import TensorGraph.Tensor.Matrix

/-!
Kernels: what an instruction writes into its slot. A kernel resizes the buffer it finds and
overwrites it from the front. Results are coerced to the element kind of the slot.
-/

namespace TensorGraph

abbrev Buffer := Array Binary64

namespace Buffer

/-- The buffer cut, or extended by zeros, to `size` elements. -/
def resized (buffer : Buffer) (size : Nat) : Buffer :=
  buffer.take size ++ Array.replicate (size - buffer.size) (Binary64.zero false)

/-- Elements replaced from the front, as far as both go. -/
def overwritten (buffer values : Buffer) : Buffer :=
  values.take buffer.size ++ buffer.drop values.size

/-- `values` written into `buffer` after it was resized. -/
def fill (buffer : Buffer) (size : Nat) (values : Buffer) : Buffer :=
  (buffer.resized size).overwritten values

end Buffer

namespace Kernel

def unary (f : Unary) (kind : ElementKind) (dst src : Buffer) : Buffer :=
  dst.fill src.size (src.map fun v => kind.coerce (f.apply v))

/-- Divides without dropping fractions; only float kinds reach a tape. -/
def binary (f : Binary64 → Binary64 → Binary64) (kind : ElementKind)
    (dst lhs rhs : Buffer) : Buffer :=
  dst.fill lhs.size (Array.zipWith (fun a b => kind.coerce (f a b)) lhs rhs)

/-- A sum cut off below zero, coerced once. -/
def addRelu (a b : Binary64) : Binary64 := relu (a + b)

/-- From `threshold` elements on the product is computed row by row, each row on its own. -/
def matmul (threshold m k n : Nat) (kind : ElementKind) (dst lhs rhs : Buffer) :
    Except Error Buffer := do
  let size ← Word.mul m n
  let product ←
    if threshold ≤ size ∧ 1 < m ∧ 0 < n then
      let rows ← (List.range m).mapM fun row => Matrix.multiplyRows lhs rhs row (row + 1) k n
      pure rows.toArray.flatten
    else Matrix.multiplyRows lhs rhs 0 m k n
  return dst.fill size (product.map kind.coerce)

def transpose (rows cols : Nat) (dst src : Buffer) : Except Error Buffer := do
  return dst.fill (← Word.mul rows cols) (Matrix.transposed src rows cols)

end Kernel

/-- Nothing of the old contents shows once every element is written. -/
theorem Buffer.fill_of_size {buffer values : Buffer} {size : Nat} (h : values.size = size) :
    buffer.fill size values = values := by
  have full : (buffer.resized size).size = size := by simp [resized]; omega
  subst h
  simp [fill, overwritten, full]

end TensorGraph
