import TensorGraph.Bundle.Weights
import TensorGraph.Tape.Plan

/-!
What a bundle's three files hold: a C header that declares the entry point and the sizes of
its regions, the weights, and the tape with every buffer's place in its region.
-/

namespace TensorGraph

structure Bundle where
  network : String
  plan : Plan
  alignment : Nat
  constants : Region
  placeholders : Region
  activations : Region
  deriving DecidableEq, Repr

namespace Bundle

/-- The bundle of a plan, with its regions as numbers. -/
def ofPlan (plan : Plan) (network : String) (alignment : Nat) : Bundle where
  network := network
  plan := plan
  alignment := alignment
  constants := .ofTypes alignment (plan.constants.map fun (_, t) => t.ty)
  placeholders := .ofTypes alignment (plan.placeholders.map (·.ty))
  activations := .ofTypes alignment plan.slotTypes

/-- Lays out a plan's regions in words. -/
def layOut (plan : Plan) (network : String) (alignment : Nat) : Except Error Bundle := do
  return {
    network
    plan
    alignment
    constants := ← Region.layOut alignment (plan.constants.map fun (_, t) => t.ty)
    placeholders := ← Region.layOut alignment (plan.placeholders.map (·.ty))
    activations := ← Region.layOut alignment plan.slotTypes }

/-- A network's name becomes a C symbol and the stem of file names. -/
def isNetworkName (name : String) : Bool :=
  match name.toList with
  | c :: rest => (c.isAlpha || c = '_') && rest.all fun c => c.isAlphanum || c = '_'
  | [] => false

/-- A name with everything that a C identifier may not hold replaced. -/
def identifier (name : String) : String := name.map fun c => if c.isAlphanum then c else '_'

def lines (text : List String) : String := String.join (text.map (· ++ "\n"))

def define (name : String) (value : Nat) : String := s!"#define {name} {value}"

def header (b : Bundle) : String :=
  let stem := b.network.map Char.toUpper
  let guardName := s!"_TERN_BUNDLE_{stem}_H"
  lines <|
    [s!"// Bundle for network '{b.network}' (function '{b.plan.name}').",
      s!"#ifndef {guardName}",
      s!"#define {guardName}",
      "",
      "#include <stdint.h>",
      "",
      define s!"{stem}_CONSTANT_MEM_SIZE" b.constants.size,
      define s!"{stem}_MUTABLE_MEM_SIZE" b.placeholders.size,
      define s!"{stem}_ACTIVATIONS_MEM_SIZE" b.activations.size,
      define s!"{stem}_MEM_ALIGN" b.alignment,
      "",
      "// Placeholder offsets in mutableWeight."] ++
    List.zipWith (fun p offset => define s!"{stem}_{identifier p.name}" offset)
      b.plan.placeholders b.placeholders.offsets ++
    ["",
      "#ifdef __cplusplus",
      "extern \"C\" \x7b",
      "#endif",
      s!"int {b.network}(uint8_t *constantWeight, uint8_t *mutableWeight, " ++
        "uint8_t *activations);",
      "#ifdef __cplusplus",
      "\x7d",
      "#endif",
      "",
      "#endif"]

/-- A region with `bytes` put at `offset`. -/
def put (region : Bytes) (offset : Nat) (bytes : Bytes) : Bytes :=
  region.take offset ++ bytes ++ region.drop (offset + bytes.length)

def encodeValue (v : Value) : Bytes := v.data.toList.flatMap v.ty.kind.encode

/-- The region of constants, zero where no constant lies. -/
def constantBytes (b : Bundle) (σ : Store) : Bytes :=
  (b.plan.constants.zip b.constants.offsets).foldl
    (fun region ((_, t), offset) => put region offset (encodeValue (σ.read t)))
    (List.replicate b.constants.size 0)

def weightsHeader (b : Bundle) : Weights.Header where
  network := b.network
  alignment := b.alignment
  constantSize := b.constants.size
  constants := List.zipWith (fun (name, t) offset => {
      name
      elementKind := t.ty.kind.name
      dims := t.ty.shape.dims
      offset
      size := t.ty.sizeInBytes })
    b.plan.constants b.constants.offsets

def weights (b : Bundle) (σ : Store) : Bytes := Weights.encode b.weightsHeader (b.constantBytes σ)

/-- The tape with the places of its buffers. -/
def listing (b : Bundle) : String :=
  lines <|
    [s!"entry {b.network}", s!"function {b.plan.name}"] ++
    (List.zipWith (fun ((name, t), i) offset =>
      s!"constant c{i} {name} : {t.ty.render} @ {offset}")
      b.plan.constants.zipIdx b.constants.offsets) ++
    (List.zipWith (fun p offset => s!"mutable @{p.name} : {p.ty.render} @ {offset}")
      b.plan.placeholders b.placeholders.offsets) ++
    (List.zipWith (fun (ty, i) offset => s!"activation s{i} : {ty.render} @ {offset}")
      b.plan.slotTypes.zipIdx b.activations.offsets) ++
    b.plan.instructions.map fun i => "  " ++ i.render

end Bundle
end TensorGraph
