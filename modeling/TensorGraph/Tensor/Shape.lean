/-!
Shapes: the sizes of a tensor's dimensions, leading (batch) dimension first. A shape
without dimensions is a scalar and has one element.
-/

namespace TensorGraph

structure Shape where
  dims : List Nat
  deriving DecidableEq, Repr, Inhabited

namespace Shape

/-- The most dimensions a tensor may have. -/
def maxRank : Nat := 6

def vector (n : Nat) : Shape := ⟨[n]⟩
def matrix (rows cols : Nat) : Shape := ⟨[rows, cols]⟩

def rank (s : Shape) : Nat := s.dims.length
def count (s : Shape) : Nat := s.dims.foldr (· * ·) 1
def trailing (s : Shape) : List Nat := s.dims.tail

/-- Elements in one step along the leading dimension. -/
def rowLength (s : Shape) : Nat := s.trailing.foldr (· * ·) 1

def render (s : Shape) : String :=
  "[" ++ String.intercalate ", " (s.dims.map toString) ++ "]"

def matrix? (s : Shape) : Option (Nat × Nat) :=
  match s.dims with
  | [rows, cols] => some (rows, cols)
  | _ => none

/-- The shape with its leading dimension replaced; a scalar has none. -/
def withLeading? (s : Shape) (leading : Nat) : Option Shape :=
  match s.dims with
  | [] => none
  | _ :: rest => some ⟨leading :: rest⟩

@[simp] theorem count_nil : count ⟨[]⟩ = 1 := rfl

@[simp] theorem count_cons (d : Nat) (ds : List Nat) : count ⟨d :: ds⟩ = d * count ⟨ds⟩ := rfl

theorem count_eq_leading_mul (d : Nat) (ds : List Nat) :
    count ⟨d :: ds⟩ = d * rowLength ⟨d :: ds⟩ := rfl

@[simp] theorem count_matrix (rows cols : Nat) : (matrix rows cols).count = rows * cols := by
  simp [matrix]

end Shape
end TensorGraph
