import TensorGraph.Tensor.Value

/-!
Storage. A `Tensor` is a handle: copies of it share one cell of the store, and an update
through any of them is seen through all. Cells are only ever added, and a cell keeps its
type.
-/

namespace TensorGraph

/-- A handle on a cell, with the cell's type. -/
structure Tensor where
  address : Nat
  ty : TensorType
  deriving DecidableEq, Repr

structure Store where
  cells : Array Value
  deriving DecidableEq, Repr

/-- Computations that may add or update cells. What was stored before an error stays. -/
abbrev StoreM := EStateM Error Store

namespace Store

def empty : Store := ⟨#[]⟩

def read (σ : Store) (t : Tensor) : Value := σ.cells.getD t.address ⟨t.ty, #[]⟩

/-- The handle names a cell of its type, and the cell keeps its promises. -/
def Holds (σ : Store) (t : Tensor) : Prop :=
  ∃ v, σ.cells[t.address]? = some v ∧ v.ty = t.ty ∧ v.WellFormed

def allocate (σ : Store) (v : Value) : Tensor × Store :=
  (⟨σ.cells.size, v.ty⟩, ⟨σ.cells.push v⟩)

def write (σ : Store) (t : Tensor) (v : Value) : Store :=
  ⟨σ.cells.setIfInBounds t.address v⟩

theorem read_of_holds {σ : Store} {t : Tensor} {v : Value} (h : σ.cells[t.address]? = some v) :
    σ.read t = v := by
  simp [read, Array.getD_eq_getD_getElem?, h]

@[simp] theorem read_allocate (σ : Store) (v : Value) :
    (σ.allocate v).2.read (σ.allocate v).1 = v := by
  simp [read, allocate, Array.getD_eq_getD_getElem?]

theorem getElem?_allocate {σ : Store} {v : Value} {i : Nat} (h : i < σ.cells.size) :
    (σ.allocate v).2.cells[i]? = σ.cells[i]? := by
  simp [allocate, Array.getElem?_push, Nat.ne_of_lt h]

theorem getElem?_write_ne {σ : Store} {t : Tensor} {v : Value} {i : Nat} (h : t.address ≠ i) :
    (σ.write t v).cells[i]? = σ.cells[i]? := by
  simp [write, h]

@[simp] theorem size_write (σ : Store) (t : Tensor) (v : Value) :
    (σ.write t v).cells.size = σ.cells.size := by
  simp [write]

end Store

namespace Tensor

def sharesStorage (a b : Tensor) : Bool := a.address = b.address

def new (v : Value) : StoreM Tensor := modifyGet (·.allocate v)

def read (t : Tensor) : StoreM Value := return (← get).read t

/-- A new tensor holding a function of the tensor's value. -/
def compute (f : Value → Except Error Value) (t : Tensor) : StoreM Tensor := do
  new (← f (← t.read))

def compute₂ (f : Value → Value → Except Error Value) (a b : Tensor) : StoreM Tensor := do
  new (← f (← a.read) (← b.read))

def duplicate (t : Tensor) : StoreM Tensor := t.compute Value.duplicate

def update (t : Tensor) (data : Array Binary64) : StoreM Unit := do
  let v ← (← t.read).overwrite data
  modify (·.write t v)

/-- Copies another tensor's elements in place. The types have to be equal. -/
def copyFrom (t source : Tensor) : StoreM Unit := do
  t.ty.expectEq source.ty
  unless t.sharesStorage source do
    t.update (← source.read).data

end Tensor
end TensorGraph
