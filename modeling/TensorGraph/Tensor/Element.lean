import TensorGraph.Number.Binary64

/-!
Element kinds. Every element is stored as a `Binary64`; its kind says which numbers may be
stored (`coerce`), how they are written as bytes (`encode`) and how a caller reads them
(`read`).
-/

namespace TensorGraph

inductive ElementKind where
  | float
  | double
  | int8
  | int32
  | index
  deriving DecidableEq, Repr

/-- An element as a caller supplies or reads it: integer kinds deal in integers. -/
inductive Scalar where
  | real (number : Binary64)
  | whole (number : Int)
  deriving DecidableEq, Repr

namespace ElementKind

def all : List ElementKind := [float, double, int8, int32, index]

def name : ElementKind → String
  | float => "float"
  | double => "double"
  | int8 => "i8"
  | int32 => "i32"
  | index => "index"

def ofName? (text : String) : Option ElementKind := all.find? (·.name = text)

def size : ElementKind → Nat
  | float => 4
  | double => 8
  | int8 => 1
  | int32 => 4
  | index => 8

def isFloat : ElementKind → Bool
  | float | double => true
  | int8 | int32 | index => false

def least : ElementKind → Int
  | int8 => -0x80
  | int32 => -0x80000000
  | _ => 0

def greatest : ElementKind → Int
  | int8 => 0x7f
  | int32 => 0x7fffffff
  | index => 0xffffffffffffffff
  | _ => 0

/-- Rounds to an integer and holds it between the bounds, themselves rounded to numbers. -/
def saturate (low high : Int) (v : Binary64) : Binary64 :=
  if v.isNaN then .zero false
  else v.round.clamp (.ofInt low) (.ofInt high)

/-- The number stored for `v`. -/
def coerce (kind : ElementKind) (v : Binary64) : Binary64 :=
  match kind with
  | float => v.toSingle
  | double => v
  | int8 | int32 | index => saturate kind.least kind.greatest v

/-- The `width` low bytes of an integer in two's complement, least first. -/
def littleEndian : (width : Nat) → Int → List UInt8
  | 0, _ => []
  | width + 1, n => UInt8.ofNat (n % 256).toNat :: littleEndian width (n / 256)

/-- The bytes of a stored number. -/
def encode (kind : ElementKind) (v : Binary64) : List UInt8 :=
  littleEndian kind.size <|
    match kind with
    | float => v.toSingleBits.toNat
    | double => v.toBits.toNat
    | int8 | int32 | index => v.toIntWithin kind.least kind.greatest

/-- The element a caller reads for `v`. An integer outside the kind's bounds reads as 0. -/
def read (kind : ElementKind) (v : Binary64) : Scalar :=
  match kind with
  | float | double => .real (kind.coerce v)
  | int8 | int32 | index =>
    let n := (kind.coerce v).integerPart
    .whole (if kind.least ≤ n ∧ n ≤ kind.greatest then n else 0)

@[simp] theorem littleEndian_length (width : Nat) (n : Int) :
    (littleEndian width n).length = width := by
  induction width generalizing n with
  | zero => rfl
  | succ width ih => simp [littleEndian, ih]

@[simp] theorem encode_length (kind : ElementKind) (v : Binary64) :
    (kind.encode v).length = kind.size := by
  simp [encode]

theorem ofName?_name (kind : ElementKind) : ofName? kind.name = some kind := by
  cases kind <;> decide

end ElementKind

/-- The number an element stands for, before coercion. -/
def Scalar.toBinary64 : Scalar → Binary64
  | .real v => v
  | .whole n => .ofInt n

end TensorGraph
