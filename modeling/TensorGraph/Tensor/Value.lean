import TensorGraph.Tensor.Elementwise
import TensorGraph.Word

/-!
Values: a type and its elements, row by row. Every operation makes its result with
`ofData`, which checks the shape and coerces the elements, so a result is always
`WellFormed`. There is no broadcasting.
-/

namespace TensorGraph

structure Value where
  ty : TensorType
  data : Array Binary64
  deriving DecidableEq, Repr

namespace Value

/-- What a value promises: a lawful shape, as many elements as it says, all of its kind. -/
structure WellFormed (v : Value) : Prop where
  rank_le : v.ty.shape.rank ≤ Shape.maxRank
  fits : v.ty.shape.Fits
  size_eq : v.data.size = v.ty.count
  coerced : ∀ x ∈ v.data, v.ty.kind.coerce x = x

def ofData (data : Array Binary64) (shape : Shape) (kind : ElementKind) :
    Except Error Value := do
  shape.validate
  shape.expectCount data.size
  return ⟨⟨kind, shape⟩, data.map kind.coerce⟩

def zeros (ty : TensorType) : Except Error Value := do
  let count ← ty.shape.elements
  ty.shape.validate
  ofData (Array.replicate count (.zero false)) ty.shape ty.kind

def ofScalars (data : Array Scalar) (shape : Shape) (kind : ElementKind) : Except Error Value :=
  ofData (data.map Scalar.toBinary64) shape kind

def scalars (v : Value) (kind : ElementKind) : Except Error (Array Scalar) :=
  if kind = v.ty.kind then .ok (v.data.map kind.read)
  else .error (.elementKindMismatch v.ty.kind kind)

def duplicate (v : Value) : Except Error Value := ofData v.data v.ty.shape v.ty.kind

def overwrite (v : Value) (data : Array Binary64) : Except Error Value := do
  v.ty.shape.expectCount data.size
  return { v with data := data.map v.ty.kind.coerce }

/-- Equal types, and no two elements at one position further apart than `tolerance`. -/
def approxEq (a b : Value) (tolerance : Binary64) : Bool :=
  a.ty = b.ty && (Array.zipWith (fun x y => (x - y).abs.ble tolerance) a.data b.data).all id

def map (f : Binary64 → Binary64) (v : Value) : Except Error Value :=
  ofData (v.data.map f) v.ty.shape v.ty.kind

def zipMap (f : Binary64 → Binary64 → Binary64) (a b : Value) : Except Error Value := do
  a.ty.expectEq b.ty
  ofData (Array.zipWith f a.data b.data) a.ty.shape a.ty.kind

def unary (f : Unary) (v : Value) : Except Error Value := v.map f.apply

def binary (f : Binary) (a b : Value) : Except Error Value :=
  zipMap (f.applyAt a.ty.kind) a b

def reshape (v : Value) (shape : Shape) : Except Error Value := do
  shape.expectCount (← v.ty.shape.elements)
  ofData v.data shape v.ty.kind

/-- The row that lies `step` rows after row `start`, wrapping past the last. -/
def wrappedRow (batch start step : Nat) : Nat := (start + step) % batch

/-- The elements of `length` rows from row `start` on. -/
def wrappedRows (v : Value) (batch start length : Nat) : Array Binary64 :=
  Array.ofFn (n := length * v.ty.shape.rowLength) fun i =>
    v.data.getD (wrappedRow batch start (i / v.ty.shape.rowLength) * v.ty.shape.rowLength +
      i % v.ty.shape.rowLength) default

/-- Counts the elements of `length` rows, and the rows from row `start` to the last of them. -/
def countRows (start length row : Nat) : Except Error Unit := do
  let _ ← Word.mul length row
  if 0 < length then
    let _ ← Word.add start (length - 1)

/-- `length` rows along the leading dimension from row `start`, wrapping around. -/
def rowsWrapping (v : Value) (start length : Nat) : Except Error Value := do
  let batch ← v.ty.shape.leading
  if batch = 0 then throw .emptyLeadingDimension
  countRows start length (← v.ty.shape.rowElements)
  ofData (v.wrappedRows batch start length) (← v.ty.shape.withLeading length) v.ty.kind

theorem ofData_eq_ok_iff {data : Array Binary64} {shape : Shape} {kind : ElementKind}
    {v : Value} :
    ofData data shape kind = .ok v ↔
      shape.rank ≤ Shape.maxRank ∧ (shape.Fits ∧ shape.count = data.size) ∧
        v = ⟨⟨kind, shape⟩, data.map kind.coerce⟩ := by
  rw [← Shape.expectCount_eq_ok]
  by_cases rank : shape.rank ≤ Shape.maxRank <;>
    cases counted : shape.expectCount data.size <;>
    simp [ofData, Shape.validate, rank, counted, bind, Except.bind, pure, Except.pure, eq_comm]

end Value
end TensorGraph
