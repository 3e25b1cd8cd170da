import TensorGraph.Tensor.Value

/-!
Matrix product and transpose of two-dimensional values. Each entry of a product is summed
from left to right starting at positive zero; terms whose left factor is zero are skipped.
-/

namespace TensorGraph.Matrix

/-- The product entry at `row` and `col`, with `inner` terms and `cols` columns on the right. -/
def entry (a b : Array Binary64) (inner cols row col : Nat) : Binary64 :=
  inner.fold (fun p _ sum =>
    let x := a.getD (row * inner + p) default
    if x.isZero then sum else sum + x * b.getD (p * cols + col) default) (.zero false)

/-- Rows `first` up to `last` of a product, without coercion. -/
def productRows (a b : Array Binary64) (first last inner cols : Nat) : Array Binary64 :=
  Array.ofFn (n := (last - first) * cols) fun i =>
    entry a b inner cols (first + i / cols) (i % cols)

/-- `productRows`, whose entries have to be counted in words. -/
def multiplyRows (a b : Array Binary64) (first last inner cols : Nat) :
    Except Error (Array Binary64) := do
  let _ ← Word.mul (last - first) cols
  return productRows a b first last inner cols

/-- Elements of a `rows` by `cols` matrix, moved so that columns become rows. -/
def transposed (data : Array Binary64) (rows cols : Nat) : Array Binary64 :=
  Array.ofFn (n := rows * cols) fun i =>
    data.getD (i % rows * cols + i / rows) default

end Matrix

namespace Value

def matmul (a b : Value) : Except Error Value := do
  let (m, k) ← a.ty.shape.matrixDims
  let (k', n) ← b.ty.shape.matrixDims
  if a.ty.kind ≠ b.ty.kind then throw (.elementKindMismatch a.ty.kind b.ty.kind)
  if k ≠ k' then throw (.matmulShapeMismatch m k k' n)
  ofData (← Matrix.multiplyRows a.data b.data 0 m k n) (.matrix m n) a.ty.kind

def transpose (v : Value) : Except Error Value := do
  let (rows, cols) ← v.ty.shape.matrixDims
  let _ ← Word.mul rows cols
  ofData (Matrix.transposed v.data rows cols) (.matrix cols rows) v.ty.kind

/-- A sum cut off below zero, coerced after each of its two steps. -/
def addRelu (a b : Value) : Except Error Value := do
  unary .relu (← binary .add a b)

end Value
end TensorGraph
