import TensorGraph.Bundle.Contents
import TensorGraph.Proofs.Control

/-!
Laying out in words. Every offset of a region is at most its size, so the layout in words is the
one in numbers as long as the size is a word. Otherwise it overflows.
-/

namespace TensorGraph

variable {alignment top : Nat} {e : Error}

theorem alignWord_eq (positive : 0 < alignment) (word : alignment < Word.bound) (offset : Nat) :
    alignWord alignment offset = Word.check (alignUp alignment offset) := by
  have quotient : (offset + (alignment - 1)) / alignment ≤ alignUp alignment offset :=
    Nat.le_mul_of_pos_right _ positive
  rw [alignWord, Word.mul]
  split
  next => rfl
  next unfit =>
    have past : ¬ alignUp alignment offset < Word.bound := fun below =>
      unfit ⟨Nat.lt_of_le_of_lt quotient below, word⟩
    rw [Word.check, if_neg past]

namespace TensorType

theorem bytes_eq_ok {ty : TensorType} {n : Nat} :
    ty.bytes = .ok n ↔ ty.shape.Fits ∧ ty.sizeInBytes < Word.bound ∧ n = ty.sizeInBytes := by
  have width : ty.kind.size < Word.bound := by cases ty.kind <;> decide
  by_cases fits : ty.shape.Fits
  · rw [bytes, fits.elements, and_iff_right fits]
    exact Word.mul_eq_ok.trans (and_iff_right ⟨fits.count_lt, width⟩)
  · rw [bytes, Shape.elements_of_not_fits fits]
    exact ⟨fun made => (nomatch made), fun made => (fits made.1).elim⟩

theorem eq_overflow_of_bytes {ty : TensorType} (failed : ty.bytes = .error e) :
    e = .overflow := by
  rcases bind_eq_error.1 failed with counted | ⟨n, -, sized⟩
  · exact Word.eq_overflow_of_foldlM counted
  · exact Word.eq_overflow_of_mul sized

end TensorType

namespace Region

theorem le_place (positive : 0 < alignment) (top : Nat) (types : List TensorType) :
    top ≤ (place alignment top types).2 := by
  induction types generalizing top with
  | nil => exact Nat.le_refl _
  | cons ty rest ih =>
    calc top ≤ alignUp alignment top := le_alignUp positive top
      _ ≤ alignUp alignment top + ty.sizeInBytes := Nat.le_add_right ..
      _ ≤ _ := ih _

theorem placeWords_eq_ok (positive : 0 < alignment) (word : alignment < Word.bound)
    (start : top < Word.bound) {types : List TensorType} {placed : List Nat × Nat} :
    placeWords alignment top types = .ok placed ↔
      (∀ ty ∈ types, ty.shape.Fits) ∧ (place alignment top types).2 < Word.bound ∧
        placed = place alignment top types := by
  induction types generalizing top placed with
  | nil =>
    rw [placeWords, place]
    simp [start, eq_comm]
  | cons ty rest ih =>
    have low := le_place positive (alignUp alignment top + ty.sizeInBytes) rest
    simp only [placeWords, alignWord_eq positive word, bind_eq_ok, Word.check_eq_ok,
      TensorType.bytes_eq_ok, Word.add_eq_ok, List.forall_mem_cons, place]
    constructor
    · rintro ⟨_, ⟨-, rfl⟩, _, ⟨counted, -, rfl⟩, _, ⟨below, rfl⟩, ⟨offsets, last⟩, placed, made⟩
      obtain ⟨fits, ends, same⟩ := (ih below).1 placed
      cases made
      exact ⟨⟨counted, fits⟩, ends, by rw [← same]⟩
    · rintro ⟨⟨counted, fits⟩, ends, rfl⟩
      have below : alignUp alignment top + ty.sizeInBytes < Word.bound :=
        Nat.lt_of_le_of_lt low ends
      exact ⟨_, ⟨by omega, rfl⟩, _, ⟨counted, by omega, rfl⟩, _, ⟨below, rfl⟩, _,
        (ih below).2 ⟨fits, ends, rfl⟩, rfl⟩

theorem eq_overflow_of_placeWords {types : List TensorType}
    (failed : placeWords alignment top types = .error e) : e = .overflow := by
  induction types generalizing top with
  | nil => cases failed
  | cons ty rest ih =>
    simp only [placeWords, bind_eq_error] at failed
    rcases failed with aligned | ⟨_, -, sized | ⟨_, -, added | ⟨_, -, placed | ⟨_, -, made⟩⟩⟩⟩
    · exact Word.eq_overflow_of_mul aligned
    · exact TensorType.eq_overflow_of_bytes sized
    · exact Word.eq_overflow_of_check added
    · exact ih placed
    · cases made

/-- The buffers can be counted and their region measured in words. -/
def Measurable (alignment : Nat) (types : List TensorType) : Prop :=
  (∀ ty ∈ types, ty.shape.Fits) ∧ (ofTypes alignment types).size < Word.bound

theorem layOut_eq_ok (positive : 0 < alignment) (word : alignment < Word.bound)
    {types : List TensorType} {r : Region} :
    layOut alignment types = .ok r ↔ Measurable alignment types ∧ r = ofTypes alignment types := by
  have ends := le_alignUp positive (place alignment 0 types).2
  simp only [layOut, bind_eq_ok, placeWords_eq_ok positive word (by decide : 0 < Word.bound),
    alignWord_eq positive word, Word.check_eq_ok, Measurable, ofTypes]
  constructor
  · rintro ⟨_, ⟨fits, -, rfl⟩, _, ⟨below, rfl⟩, made⟩
    cases made
    exact ⟨⟨fits, below⟩, rfl⟩
  · rintro ⟨⟨fits, below⟩, rfl⟩
    exact ⟨_, ⟨fits, Nat.lt_of_le_of_lt ends below, rfl⟩, _, ⟨below, rfl⟩, rfl⟩

theorem word_of_layOut {types : List TensorType} {r : Region}
    (made : layOut alignment types = .ok r) : alignment < Word.bound := by
  obtain ⟨_, -, made⟩ := bind_eq_ok.1 made
  obtain ⟨_, aligned, -⟩ := bind_eq_ok.1 made
  exact (Word.mul_eq_ok.1 aligned).1.2

theorem eq_overflow_of_layOut {types : List TensorType}
    (failed : layOut alignment types = .error e) : e = .overflow := by
  simp only [layOut, bind_eq_error] at failed
  rcases failed with placed | ⟨_, -, aligned | ⟨_, -, made⟩⟩
  · exact eq_overflow_of_placeWords placed
  · exact Word.eq_overflow_of_mul aligned
  · cases made

end Region

namespace Bundle

variable {plan : Plan} {network : String} {b : Bundle}

/-- The types of the buffers in each of a bundle's regions. -/
def bufferTypes (plan : Plan) : List (List TensorType) :=
  [plan.constants.map (·.2.ty), plan.placeholders.map (·.ty), plan.slotTypes]

/-- The alignment is a word, and all regions can be measured in words. -/
def Measurable (plan : Plan) (alignment : Nat) : Prop :=
  alignment < Word.bound ∧ ∀ types ∈ bufferTypes plan, Region.Measurable alignment types

theorem layOut_eq_ok (positive : 0 < alignment) :
    layOut plan network alignment = .ok b ↔
      Measurable plan alignment ∧ b = ofPlan plan network alignment := by
  simp only [layOut, bind_eq_ok, Measurable, bufferTypes, List.forall_mem_cons, List.not_mem_nil,
    false_implies, implies_true, and_true]
  constructor
  · rintro ⟨_, first, _, second, _, third, made⟩
    have word := Region.word_of_layOut first
    obtain ⟨constants, rfl⟩ := (Region.layOut_eq_ok positive word).1 first
    obtain ⟨placeholders, rfl⟩ := (Region.layOut_eq_ok positive word).1 second
    obtain ⟨slots, rfl⟩ := (Region.layOut_eq_ok positive word).1 third
    cases made
    exact ⟨⟨word, constants, placeholders, slots⟩, rfl⟩
  · rintro ⟨⟨word, constants, placeholders, slots⟩, rfl⟩
    exact ⟨_, (Region.layOut_eq_ok positive word).2 ⟨constants, rfl⟩, _,
      (Region.layOut_eq_ok positive word).2 ⟨placeholders, rfl⟩, _,
      (Region.layOut_eq_ok positive word).2 ⟨slots, rfl⟩, rfl⟩

theorem eq_overflow_of_layOut (failed : layOut plan network alignment = .error e) :
    e = .overflow := by
  simp only [layOut, bind_eq_error] at failed
  rcases failed with first | ⟨_, -, second | ⟨_, -, third | ⟨_, -, made⟩⟩⟩
  · exact Region.eq_overflow_of_layOut first
  · exact Region.eq_overflow_of_layOut second
  · exact Region.eq_overflow_of_layOut third
  · cases made

end Bundle
end TensorGraph
