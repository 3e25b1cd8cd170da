import TensorGraph.Word

/-!
Regions: buffers one after another, each starting at a multiple of the alignment. The
region ends at a multiple too. `Region.ofTypes` gives a region's places as numbers, and
`Region.layOut` computes them in words.
-/

namespace TensorGraph

/-- The least multiple of a positive `alignment` that is at least `offset`. -/
def alignUp (alignment offset : Nat) : Nat := (offset + (alignment - 1)) / alignment * alignment

def alignWord (alignment offset : Nat) : Except Error Nat :=
  Word.mul ((offset + (alignment - 1)) / alignment) alignment

structure Region where
  offsets : List Nat
  size : Nat
  deriving DecidableEq, Repr

namespace Region

/-- The offsets of buffers whose region has been filled up to `top`, and where the last ends. -/
def place (alignment top : Nat) : List TensorType → List Nat × Nat
  | [] => ([], top)
  | ty :: rest =>
    let offset := alignUp alignment top
    let (offsets, top) := place alignment (offset + ty.sizeInBytes) rest
    (offset :: offsets, top)

def ofTypes (alignment : Nat) (types : List TensorType) : Region :=
  let (offsets, top) := place alignment 0 types
  ⟨offsets, alignUp alignment top⟩

/-- `place`, in words. -/
def placeWords (alignment top : Nat) : List TensorType → Except Error (List Nat × Nat)
  | [] => return ([], top)
  | ty :: rest => do
    let offset ← alignWord alignment top
    let (offsets, top) ← placeWords alignment (← Word.add offset (← ty.bytes)) rest
    return (offset :: offsets, top)

def layOut (alignment : Nat) (types : List TensorType) : Except Error Region := do
  let (offsets, top) ← placeWords alignment 0 types
  return ⟨offsets, ← alignWord alignment top⟩

theorem place_length (alignment top : Nat) (types : List TensorType) :
    (place alignment top types).1.length = types.length := by
  induction types generalizing top with
  | nil => rfl
  | cons ty rest ih => simp [place, ih]

@[simp] theorem ofTypes_length (alignment : Nat) (types : List TensorType) :
    (ofTypes alignment types).offsets.length = types.length :=
  place_length alignment 0 types

end Region

theorem alignUp_dvd (alignment offset : Nat) : alignment ∣ alignUp alignment offset :=
  Nat.dvd_mul_left ..

theorem le_alignUp {alignment : Nat} (h : 0 < alignment) (offset : Nat) :
    offset ≤ alignUp alignment offset := by
  have := Nat.div_add_mod (offset + (alignment - 1)) alignment
  have := Nat.mod_lt (offset + (alignment - 1)) h
  rw [Nat.mul_comm] at *
  simp only [alignUp]
  omega

end TensorGraph
