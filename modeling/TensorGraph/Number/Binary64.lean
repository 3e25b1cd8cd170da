import TensorGraph.Number.Format

/-!
Double-precision numbers with exact arithmetic underneath: an operation on finite numbers
computes its result over the integers, in units of the least subnormal, and rounds once.

A NaN carries its sign and payload through arithmetic, made quiet; of two NaNs the left one
survives. An operation without a meaningful result gives `invalid`.
-/

namespace TensorGraph

/-- A sign and a magnitude code of `Format.binary64`. Codes are ordered as magnitudes are. -/
structure Binary64 where
  negative : Bool
  magnitude : BitVec 63
  deriving DecidableEq, Repr

namespace Binary64

def scale : Nat := 1 <<< 1074

/-- The place of the sign in a word, one above the magnitude code. -/
def signBit : Nat := 1 <<< 63

/-- A number by its sign and the magnitude code in the bits of `code` below the sign. -/
def ofCode (negative : Bool) (code : Nat) : Binary64 := ⟨negative, BitVec.ofNat 63 code⟩

def ofBits (bits : UInt64) : Binary64 := ofCode (signBit ≤ bits.toNat) bits.toNat

def toBits (x : Binary64) : UInt64 :=
  UInt64.ofNat (x.magnitude.toNat + if x.negative then signBit else 0)

def zero (negative : Bool) : Binary64 := ofCode negative 0
def infinity (negative : Bool) : Binary64 := ofCode negative Format.binary64.infinity

/-- The NaN a caller gets by asking for one. -/
def nan : Binary64 := ofCode false (Format.binary64.infinity + Format.binary64.quietBit)

/-- The NaN of an operation that has no result, such as `0 / 0`. -/
def invalid : Binary64 := ofCode true (Format.binary64.infinity + Format.binary64.quietBit)

instance : Inhabited Binary64 := ⟨zero false⟩

def isNaN (x : Binary64) : Bool := Format.binary64.infinity < x.magnitude.toNat
def isInfinite (x : Binary64) : Bool := x.magnitude.toNat = Format.binary64.infinity
def isFinite (x : Binary64) : Bool := x.magnitude.toNat < Format.binary64.infinity
def isZero (x : Binary64) : Bool := x.magnitude.toNat = 0

def quiet (x : Binary64) : Binary64 :=
  ofCode x.negative (x.magnitude.toNat ||| Format.binary64.quietBit)

def units (x : Binary64) : Nat := Format.binary64.units x.magnitude.toNat

/-- A finite number, in units. -/
def value (x : Binary64) : Int := if x.negative then -(x.units : Int) else x.units

/-- The number nearest to a quotient of units. -/
def rounded (negative : Bool) (numerator denominator : Nat) : Binary64 :=
  ofCode negative (Format.binary64.round numerator denominator)

def ofInt (n : Int) : Binary64 := rounded (n < 0) (n.natAbs * scale) 1

/-- The number nearest to `numerator / denominator`. -/
def ofRatio (negative : Bool) (numerator denominator : Nat) : Binary64 :=
  rounded negative (numerator * scale) denominator

def one : Binary64 := ofInt 1

def neg (x : Binary64) : Binary64 := { x with negative := !x.negative }
def abs (x : Binary64) : Binary64 := { x with negative := false }

/-- Equal numbers of opposite sign cancel to positive zero. -/
def add (x y : Binary64) : Binary64 :=
  if x.isNaN then x.quiet
  else if y.isNaN then y.quiet
  else if x.isInfinite then
    if y.isInfinite && x.negative != y.negative then invalid else x
  else if y.isInfinite then y
  else
    let total := x.value + y.value
    if total = 0 then zero (x.negative && y.negative)
    else rounded (total < 0) total.natAbs 1

def sub (x y : Binary64) : Binary64 :=
  if x.isNaN then x.quiet else if y.isNaN then y.quiet else add x (neg y)

def mul (x y : Binary64) : Binary64 :=
  let negative := x.negative != y.negative
  if x.isNaN then x.quiet
  else if y.isNaN then y.quiet
  else if x.isInfinite then if y.isZero then invalid else infinity negative
  else if y.isInfinite then if x.isZero then invalid else infinity negative
  else rounded negative (x.units * y.units) scale

def div (x y : Binary64) : Binary64 :=
  let negative := x.negative != y.negative
  if x.isNaN then x.quiet
  else if y.isNaN then y.quiet
  else if x.isInfinite then if y.isInfinite then invalid else infinity negative
  else if y.isInfinite then zero negative
  else if y.isZero then if x.isZero then invalid else infinity negative
  else rounded negative (x.units * scale) y.units

instance : Neg Binary64 := ⟨neg⟩
instance : Add Binary64 := ⟨add⟩
instance : Sub Binary64 := ⟨sub⟩
instance : Mul Binary64 := ⟨mul⟩
instance : Div Binary64 := ⟨div⟩

-- Comparison. A NaN is neither below nor above anything, and the two zeros are equal.

/-- The place of a number among the non-NaN numbers; both zeros stand at 0. -/
def rank (x : Binary64) : Int :=
  if x.negative then -(x.magnitude.toNat : Int) else x.magnitude.toNat

def blt (x y : Binary64) : Bool := !x.isNaN && !y.isNaN && x.rank < y.rank
def ble (x y : Binary64) : Bool := !x.isNaN && !y.isNaN && x.rank ≤ y.rank

/-- A NaN gives way to the other operand, and positive zero counts as above negative zero. The
result is one of the operands as it stands: of two NaNs the left one, not made quiet. -/
def max (x y : Binary64) : Binary64 :=
  if y.isNaN then x
  else if x.isNaN then y
  else if x.isZero && y.isZero then zero (x.negative && y.negative)
  else if x.blt y then y else x

/-- The companion of `max`: negative zero counts as below positive zero. -/
def min (x y : Binary64) : Binary64 :=
  if y.isNaN then x
  else if x.isNaN then y
  else if x.isZero && y.isZero then zero (x.negative || y.negative)
  else if y.blt x then y else x

def clamp (x low high : Binary64) : Binary64 :=
  if x.blt low then low else if high.blt x then high else x

/-- The nearest integer, a half going away from zero. The sign of a zero result is kept. -/
def round (x : Binary64) : Binary64 :=
  if x.isFinite then
    rounded x.negative ((2 * x.units + scale) / (2 * scale) * scale) 1
  else x

/-- The integer part, with the sign of a zero result kept. -/
def truncate (x : Binary64) : Binary64 :=
  if x.isFinite then rounded x.negative (x.units / scale * scale) 1 else x

/-- The integer part of a finite number as an integer. -/
def integerPart (x : Binary64) : Int :=
  if x.negative then -((x.units / scale : Nat) : Int) else (x.units / scale : Nat)

/-- The integer a finite number is, if it is one. -/
def toInt? (x : Binary64) : Option Int :=
  if x.isFinite && x.units % scale = 0 then some x.integerPart else none

/-- The integer part held within bounds; 0 for a NaN. -/
def toIntWithin (low high : Int) (x : Binary64) : Int :=
  if x.isNaN then 0
  else if x.isInfinite then if x.negative then low else high
  else Max.max low (Min.min high x.integerPart)

/-- Units of `Format.binary64` in one unit of `Format.binary32`. -/
def singleScale : Nat := 1 <<< 925

/-- Fraction bits that single precision lacks. -/
def fractionGap : Nat := 29

/-- The single-precision code nearest to a magnitude. A NaN keeps its leading payload bits. -/
def singleCode (x : Binary64) : Nat :=
  if x.isNaN then
    Format.binary32.infinity |||
      (x.magnitude.toNat >>> fractionGap % Format.binary32.hidden) |||
      Format.binary32.quietBit
  else if x.isInfinite then Format.binary32.infinity
  else Format.binary32.round x.units singleScale

def toSingleBits (x : Binary64) : UInt32 :=
  UInt32.ofNat (x.singleCode + if x.negative then 1 <<< 31 else 0)

def ofSingleCode (negative : Bool) (code : Nat) : Binary64 :=
  if Format.binary32.infinity < code then
    ofCode negative (Format.binary64.infinity |||
      (code % Format.binary32.hidden) <<< fractionGap ||| Format.binary64.quietBit)
  else if code = Format.binary32.infinity then infinity negative
  else rounded negative (Format.binary32.units code * singleScale) 1

def toSingle (x : Binary64) : Binary64 := ofSingleCode x.negative x.singleCode

@[simp] theorem ofCode_negative (negative : Bool) (code : Nat) :
    (ofCode negative code).negative = negative := rfl

theorem ofCode_magnitude {negative : Bool} {code : Nat} (h : code < signBit) :
    (ofCode negative code).magnitude.toNat = code :=
  Nat.mod_eq_of_lt h

theorem rounded_code (numerator denominator : Nat) :
    Format.binary64.round numerator denominator < signBit :=
  Nat.lt_of_le_of_lt (Format.round_le_infinity ..) (by decide)

@[simp] theorem rounded_negative (negative : Bool) (numerator denominator : Nat) :
    (rounded negative numerator denominator).negative = negative := rfl

@[simp] theorem rounded_magnitude (negative : Bool) (numerator denominator : Nat) :
    (rounded negative numerator denominator).magnitude.toNat =
      Format.binary64.round numerator denominator :=
  ofCode_magnitude (rounded_code ..)

@[simp] theorem neg_neg (x : Binary64) : x.neg.neg = x := by
  cases x; simp [neg]

end Binary64
end TensorGraph
