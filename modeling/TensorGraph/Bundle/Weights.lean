import TensorGraph.Bundle.Layout
import TensorGraph.Error
import TensorGraph.Json.Tree

/-!
Weights files: the length of a JSON header in eight bytes, least first, the header, and the
region of constants that the header describes.
-/

namespace TensorGraph

structure Weights.Entry where
  name : String
  elementKind : String
  dims : List Nat
  offset : Nat
  size : Nat
  deriving DecidableEq, Repr

structure Weights.Header where
  network : String
  alignment : Nat
  constantSize : Nat
  constants : List Weights.Entry
  deriving DecidableEq, Repr

namespace Weights.Entry

def toJson (e : Weights.Entry) : Json :=
  .ofRecord [
    ("name", .ofText e.name), ("elem_kind", .ofText e.elementKind),
    ("dims", .array (e.dims.map Json.ofNat)),
    ("offset", .ofNat e.offset), ("size", .ofNat e.size)]

def ofJson? (json : Json) : Option Weights.Entry := do
  match ← json.toRecord? ["name", "elem_kind", "dims", "offset", "size"] with
  | [name, elementKind, dims, offset, size] =>
    return {
      name := ← name.toText?
      elementKind := ← elementKind.toText?
      dims := ← (← dims.toList?).mapM Json.toWord64?
      offset := ← offset.toWord64?
      size := ← size.toWord64? }
  | _ => none

end Weights.Entry

namespace Weights.Header

def toJson (h : Weights.Header) : Json :=
  .ofRecord [
    ("network", .ofText h.network), ("alignment", .ofNat h.alignment),
    ("constant_mem_size", .ofNat h.constantSize),
    ("constants", .array (h.constants.map Weights.Entry.toJson))]

def ofJson? (json : Json) : Option Weights.Header := do
  match ← json.toRecord? ["network", "alignment", "constant_mem_size", "constants"] with
  | [network, alignment, size, constants] =>
    return {
      network := ← network.toText?
      alignment := ← alignment.toWord64?
      constantSize := ← size.toWord64?
      constants := ← (← constants.toList?).mapM Weights.Entry.ofJson? }
  | _ => none

end Weights.Header

namespace Weights

/-- The number that bytes spell, least first. -/
def number (bytes : Bytes) : Nat := bytes.foldr (fun b n => b.toNat + 256 * n) 0

def encode (header : Weights.Header) (region : Bytes) : Bytes :=
  let text := header.toJson.render
  ElementKind.littleEndian 8 text.length ++ text ++ region

/-- Reads a file found at `path`. Whatever follows the header is the region. -/
def decode (path : String) (bytes : Bytes) : Except Error (Weights.Header × Bytes) :=
  if bytes.length < 8 then .error (.truncatedWeights path)
  else
    let length := number (bytes.take 8)
    let rest := bytes.drop 8
    if rest.length < length then .error (.headerPastEnd path)
    else
      match (Json.parse? (rest.take length)).bind Weights.Header.ofJson? with
      | some header => .ok (header, rest.drop length)
      | none => .error (.invalidHeader path)

def read (fs : FileSystem) (path : Path) : Except Error (Weights.Header × Bytes) :=
  match fs.fileAt? path with
  | some bytes => decode path.render bytes
  | none => .error .fileSystem

end Weights
end TensorGraph
