import TensorGraph.Bundle.Weights
import TensorGraph.Proofs.Json.Tree
import TensorGraph.Proofs.Number.Coercion

/-!
Weights files that are read as they were written. Every number of the header has to fit a 64-bit
word; nothing is asked of its texts. `decode?` reads the bytes of one element of a float kind, and
gives every stored element back, NaNs included.
-/

namespace TensorGraph

namespace Weights

theorem number_littleEndian (width n : Nat) :
    number (ElementKind.littleEndian width n) = n % 256 ^ width := by
  induction width generalizing n with
  | zero => simp [ElementKind.littleEndian, number, Nat.mod_one]
  | succ width ih =>
    have low : ((n : Int) % 256).toNat = n % 256 := by omega
    have high : (n : Int) / 256 = (n / 256 : Nat) := by omega
    have split : n % 256 ^ (width + 1) = n % 256 + 256 * (n / 256 % 256 ^ width) := by
      rw [Nat.pow_succ', Nat.mod_mul]
    have rest := ih (n / 256)
    rw [number] at rest ⊢
    rw [ElementKind.littleEndian, low, high, List.foldr_cons, rest, split, UInt8.toNat_ofNat',
      Nat.mod_mod]

end Weights

namespace Binary64

/-- The number that a single-precision word stands for. -/
def ofSingleBits (word : Nat) : Binary64 := ofSingleCode (1 <<< 31 ≤ word) (word % 1 <<< 31)

theorem singleCode_lt (x : Binary64) : x.singleCode < 1 <<< 31 := by
  cases nan : x.isNaN with
  | true =>
    rw [singleCode_nan nan, Nat.one_shiftLeft]
    exact Nat.or_lt_two_pow (by decide) (Nat.lt_trans x.singlePayload_lt (by decide))
  | false => exact Nat.lt_of_le_of_lt (singleCode_le nan) (by decide)

theorem toNat_toSingleBits (x : Binary64) :
    x.toSingleBits.toNat = x.singleCode + if x.negative then 1 <<< 31 else 0 := by
  have code := x.singleCode_lt
  have word : x.singleCode + (if x.negative then 1 <<< 31 else 0) < 2 ^ 32 := by
    split
    · exact Nat.lt_of_lt_of_eq (Nat.add_lt_add_right code (1 <<< 31)) (by decide)
    · exact Nat.lt_trans code (by decide)
  rw [toSingleBits, UInt32.toNat_ofNat', Nat.mod_eq_of_lt word]

theorem ofSingleBits_toSingleBits (x : Binary64) :
    ofSingleBits x.toSingleBits.toNat = x.toSingle := by
  have code := x.singleCode_lt
  have sign : decide (1 <<< 31 ≤ x.singleCode + if x.negative then 1 <<< 31 else 0) =
      x.negative := by
    cases x.negative with
    | true => exact decide_eq_true (Nat.le_add_left _ _)
    | false => exact decide_eq_false (Nat.not_le_of_lt code)
  have rest : (x.singleCode + if x.negative then 1 <<< 31 else 0) % 1 <<< 31 = x.singleCode := by
    split
    · rw [Nat.add_mod_right, Nat.mod_eq_of_lt code]
    · rw [Nat.add_zero, Nat.mod_eq_of_lt code]
  rw [toNat_toSingleBits, ofSingleBits, sign, rest, toSingle]

theorem toNat_toBits (x : Binary64) :
    x.toBits.toNat = x.magnitude.toNat + if x.negative then signBit else 0 := by
  have code : x.magnitude.toNat < signBit := x.magnitude.isLt
  have word : x.magnitude.toNat + (if x.negative then signBit else 0) < 2 ^ 64 := by
    split
    · exact Nat.lt_of_lt_of_eq (Nat.add_lt_add_right code signBit) (by decide)
    · exact Nat.lt_trans code (by decide)
  rw [toBits, UInt64.toNat_ofNat', Nat.mod_eq_of_lt word]

theorem ofBits_toBits (x : Binary64) : ofBits x.toBits = x := by
  have code : x.magnitude.toNat < signBit := x.magnitude.isLt
  rw [ofBits, toNat_toBits]
  refine ext_magnitude ?_ ?_
  · rw [ofCode_negative]
    cases x.negative with
    | true => exact decide_eq_true (Nat.le_add_left _ _)
    | false => exact decide_eq_false (Nat.not_le_of_lt code)
  · rw [ofCode, BitVec.toNat_ofNat]
    change (x.magnitude.toNat + if x.negative then signBit else 0) % signBit = x.magnitude.toNat
    split
    · rw [Nat.add_mod_right, Nat.mod_eq_of_lt code]
    · rw [Nat.add_zero, Nat.mod_eq_of_lt code]

end Binary64

/-- The element that bytes spell, least first. Integer kinds have no place in a weights file. -/
def ElementKind.decode? (kind : ElementKind) (bytes : Bytes) : Option Binary64 :=
  match kind with
  | float => some (.ofSingleBits (Weights.number bytes))
  | double => some (.ofBits (.ofNat (Weights.number bytes)))
  | int8 | int32 | index => none

theorem ElementKind.decode?_encode {kind : ElementKind} (float : kind.isFloat) {v : Binary64}
    (stored : kind.coerce v = v) : kind.decode? (kind.encode v) = some v := by
  cases kind with
  | float =>
    have word : v.toSingleBits.toNat < 256 ^ 4 := v.toSingleBits.toNat_lt
    rw [encode, decode?, Weights.number_littleEndian, size, Nat.mod_eq_of_lt word,
      Binary64.ofSingleBits_toSingleBits]
    exact congrArg some stored
  | double =>
    have word : v.toBits.toNat < 256 ^ 8 := v.toBits.toNat_lt
    rw [encode, decode?, Weights.number_littleEndian, size, Nat.mod_eq_of_lt word,
      UInt64.ofNat_toNat, Binary64.ofBits_toBits]
  | int8 | int32 | index => cases float

namespace Weights

/-- The numbers of the entry fit words. -/
structure Entry.Fits (e : Entry) : Prop where
  dims : ∀ d ∈ e.dims, d < UInt64.size
  offset : e.offset < UInt64.size
  size : e.size < UInt64.size

/-- The numbers of the header fit words. -/
structure Header.Fits (h : Header) : Prop where
  alignment : h.alignment < UInt64.size
  constantSize : h.constantSize < UInt64.size
  constants : ∀ e ∈ h.constants, e.Fits

theorem Entry.written (e : Entry) : e.toJson.Written := by
  refine Json.written_ofRecord fun field member => ?_
  simp only [List.mem_cons, List.not_mem_nil, or_false] at member
  rcases member with rfl | rfl | rfl | rfl | rfl
  · exact Json.written_ofText _
  · exact Json.written_ofText _
  · refine .array fun d present => ?_
    obtain ⟨n, -, rfl⟩ := List.mem_map.1 present
    exact .number n
  · exact .number _
  · exact .number _

theorem Header.written (h : Header) : h.toJson.Written := by
  refine Json.written_ofRecord fun field member => ?_
  simp only [List.mem_cons, List.not_mem_nil, or_false] at member
  rcases member with rfl | rfl | rfl | rfl
  · exact Json.written_ofText _
  · exact .number _
  · exact .number _
  · refine .array fun e present => ?_
    obtain ⟨entry, -, rfl⟩ := List.mem_map.1 present
    exact entry.written

theorem Entry.ofJson?_toJson {e : Entry} (fits : e.Fits) : ofJson? e.toJson = some e := by
  have fields : e.toJson.toRecord? ["name", "elem_kind", "dims", "offset", "size"] =
      some [.ofText e.name, .ofText e.elementKind, .array (e.dims.map Json.ofNat),
        .ofNat e.offset, .ofNat e.size] := Json.toRecord?_ofRecord (by simp)
  simp only [ofJson?, fields, Option.bind_eq_bind, Option.bind_some, Json.toText?_ofText,
    Json.toList?, Json.mapM_toWord64? fits.dims, Json.toWord64?_ofNat fits.offset,
    Json.toWord64?_ofNat fits.size]
  rfl

theorem Header.ofJson?_toJson {h : Header} (fits : h.Fits) : ofJson? h.toJson = some h := by
  have fields :
      h.toJson.toRecord? ["network", "alignment", "constant_mem_size", "constants"] =
        some [.ofText h.network, .ofNat h.alignment, .ofNat h.constantSize,
          .array (h.constants.map Weights.Entry.toJson)] := Json.toRecord?_ofRecord (by simp)
  have entries := mapM_option_inverse fun e member =>
    Entry.ofJson?_toJson (fits.constants e member)
  simp only [ofJson?, fields, Option.bind_eq_bind, Option.bind_some, Json.toText?_ofText,
    Json.toList?, Json.toWord64?_ofNat fits.alignment, Json.toWord64?_ofNat fits.constantSize,
    entries]
  rfl

theorem length_encode (header : Header) (region : Bytes) :
    (encode header region).length = 8 + header.toJson.render.length + region.length := by
  simp [encode]
  omega

theorem number_encode {header : Header} {region : Bytes}
    (short : (encode header region).length < UInt64.size) :
    number ((encode header region).take 8) = header.toJson.render.length := by
  have word : header.toJson.render.length < 256 ^ 8 := by
    rw [length_encode] at short
    exact Nat.lt_of_le_of_lt (by omega) short
  have front : (encode header region).take 8 =
      ElementKind.littleEndian 8 header.toJson.render.length := by
    simp [encode]
  rw [front, number_littleEndian, Nat.mod_eq_of_lt word]

theorem decode_encode {header : Header} (fits : header.Fits) {region : Bytes}
    (short : (encode header region).length < UInt64.size) (path : String) :
    decode path (encode header region) = .ok (header, region) := by
  have parsed : (Json.parse? header.toJson.render).bind Header.ofJson? = some header := by
    rw [header.written.parse?_render, Option.bind_some, Header.ofJson?_toJson fits]
  have total := length_encode header region
  have rest : (encode header region).drop 8 = header.toJson.render ++ region := by
    simp [encode]
  rw [decode, if_neg (by omega)]
  simp only [number_encode short, rest, List.take_left, List.drop_left, parsed]
  rw [if_neg (by simp)]

end Weights
end TensorGraph
