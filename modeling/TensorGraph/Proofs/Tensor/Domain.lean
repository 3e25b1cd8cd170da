import TensorGraph.Proofs.Bundle.Weights
import TensorGraph.Proofs.Number.Bounds
import TensorGraph.Proofs.Tensor.Store

/-!
What a tensor holds: as many numbers as its dimensions multiply to, each of them a number of its
kind. A number that its kind's coercion leaves alone is such a number, and the bytes that are
written for it spell it.
-/

namespace TensorGraph

namespace ElementKind

variable {kind : ElementKind} {x : Binary64}

/-- The numbers of a kind: those that single precision has, all of them, or the integers between
the bounds, the greatest bound being the number nearest to it. -/
def Admits (kind : ElementKind) (x : Binary64) : Prop :=
  match kind with
  | float => ∃ word : UInt32, x = .ofSingleBits word.toNat
  | double => True
  | int8 | int32 | index =>
    ∃ n, x.toInt? = some n ∧ kind.least ≤ n ∧ (n ≤ kind.greatest ∨ x = .ofInt kind.greatest)

/-- The bytes stand for the number: they are decoded to it, or are those of an integer within the
bounds that is the same number. -/
def Spells (kind : ElementKind) (bytes : Bytes) (x : Binary64) : Prop :=
  if kind.isFloat then kind.decode? bytes = some x
  else ∃ n, bytes = littleEndian kind.size n ∧ kind.least ≤ n ∧ n ≤ kind.greatest ∧
    (Binary64.ofInt n).rank = x.rank

theorem admits_of_coerced (stored : kind.coerce x = x) : kind.Admits x := by
  cases kind with
  | float => exact ⟨x.toSingleBits, by rw [x.ofSingleBits_toSingleBits]; exact stored.symm⟩
  | double => trivial
  | int8 | int32 | index => exact toInt?_of_coerced rfl stored

theorem spells_encode (stored : kind.coerce x = x) : kind.Spells (kind.encode x) x := by
  rw [Spells]
  split
  next float => exact decode?_encode float stored
  next whole => exact encode_of_coerced (Bool.eq_false_iff.2 whole) stored

end ElementKind

namespace Store

variable {σ : Store} {t : Tensor}

/-- The tensor has storage of its type, which holds numbers of its kind and nothing else. -/
structure InKind (σ : Store) (t : Tensor) : Prop where
  present : t.address < σ.cells.size
  type : (σ.read t).ty = t.ty
  rank_le : t.ty.shape.rank ≤ 6
  size_eq : (σ.read t).data.size = t.ty.shape.dims.prod
  coerced : ∀ x ∈ (σ.read t).data, t.ty.kind.coerce x = x
  admitted : ∀ x ∈ (σ.read t).data, t.ty.kind.Admits x
  /-- What is written to a bundle for an element is that element. -/
  written : ∀ x ∈ (σ.read t).data, t.ty.kind.Spells (t.ty.kind.encode x) x
  /-- A copy holds the same. -/
  duplicated : (σ.read t).duplicate = .ok (σ.read t)
  /-- What is stored in a tensor of the same type is the same there. -/
  stored : ∀ v : Value, v.ty = t.ty → v.overwrite (σ.read t).data = .ok (σ.read t)

theorem Holds.inKind (held : σ.Holds t) : σ.InKind t := by
  obtain ⟨promise, type⟩ := held.read
  have coerced := type ▸ promise.coerced
  obtain ⟨v, found, -⟩ := held
  constructor
  case present => exact (Array.getElem?_eq_some_iff.1 found).1
  case type => exact type
  case rank_le => exact type ▸ promise.rank_le
  case size_eq => exact type ▸ promise.size_eq
  case coerced => exact coerced
  case admitted => exact fun x member => ElementKind.admits_of_coerced (coerced x member)
  case written => exact fun x member => ElementKind.spells_encode (coerced x member)
  case duplicated => exact Value.duplicate_eq promise
  case stored =>
    intro w same
    have own : w.ty = (σ.read t).ty := same.trans type.symm
    refine Value.overwrite_eq_ok.2 ⟨?_, ?_⟩
    · rw [own]
      exact ⟨promise.fits, promise.size_eq.symm⟩
    · rw [own, promise.map_coerce]

end Store
end TensorGraph
