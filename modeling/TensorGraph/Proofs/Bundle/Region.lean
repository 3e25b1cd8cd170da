import TensorGraph.Proofs.Bundle.Layout
import TensorGraph.Proofs.Bundle.Weights
import TensorGraph.Proofs.Tensor.Store

/-!
The region of constants. Buffers are laid out one after another, so filling them in one by one
leaves those filled before alone: in the end each place holds its own bytes and the rest is zero.
-/

namespace TensorGraph

namespace Region

variable {alignment : Nat}

/-- Buffers start at multiples of the alignment, in order and without overlap, between `top` and
where the last one ends. -/
theorem place_spec (positive : 0 < alignment) (top : Nat) (types : List TensorType) :
    (∀ e ∈ types.zip (place alignment top types).1,
        alignment ∣ e.2 ∧ top ≤ e.2 ∧ e.2 + e.1.sizeInBytes ≤ (place alignment top types).2) ∧
      (types.zip (place alignment top types).1).Pairwise fun a b =>
        a.2 + a.1.sizeInBytes ≤ b.2 := by
  induction types generalizing top with
  | nil => exact ⟨fun _ member => (nomatch member), .nil⟩
  | cons ty rest ih =>
    have start := le_alignUp positive top
    have later := le_place positive (alignUp alignment top + ty.sizeInBytes) rest
    obtain ⟨each, apart⟩ := ih (alignUp alignment top + ty.sizeInBytes)
    simp only [place, List.zip_cons_cons]
    refine ⟨fun e member => ?_, .cons (fun e member => (each e member).2.1) apart⟩
    rcases List.mem_cons.1 member with rfl | member
    · exact ⟨alignUp_dvd _ _, start, later⟩
    · obtain ⟨aligned, above, below⟩ := each e member
      exact ⟨aligned, by omega, below⟩

theorem ofTypes_spec (positive : 0 < alignment) (types : List TensorType) :
    (∀ e ∈ types.zip (ofTypes alignment types).offsets,
        alignment ∣ e.2 ∧ e.2 + e.1.sizeInBytes ≤ (ofTypes alignment types).size) ∧
      (types.zip (ofTypes alignment types).offsets).Pairwise fun a b =>
        a.2 + a.1.sizeInBytes ≤ b.2 := by
  obtain ⟨each, apart⟩ := place_spec positive 0 types
  refine ⟨fun e member => ?_, apart⟩
  obtain ⟨aligned, -, below⟩ := each e member
  exact ⟨aligned, Nat.le_trans below (le_alignUp positive _)⟩

end Region

namespace Bundle

variable {region bytes : Bytes} {offset : Nat}

theorem length_put (inside : offset + bytes.length ≤ region.length) :
    (put region offset bytes).length = region.length := by
  simp only [put, List.length_append, List.length_take, List.length_drop]
  omega

theorem getElem?_put_outside (inside : offset + bytes.length ≤ region.length) {i : Nat}
    (outside : ¬ (offset ≤ i ∧ i < offset + bytes.length)) :
    (put region offset bytes)[i]? = region[i]? := by
  have front : (region.take offset).length = offset := List.length_take_of_le (by omega)
  by_cases before : i < offset
  · rw [put, List.append_assoc, List.getElem?_append_left (by omega), List.getElem?_take_of_lt before]
  · rw [put, List.getElem?_append_right (by simp only [List.length_append]; omega),
      List.getElem?_drop, List.length_append, front]
    congr 1
    omega

theorem slice_put (inside : offset + bytes.length ≤ region.length) :
    ((put region offset bytes).drop offset).take bytes.length = bytes := by
  have front : (region.take offset).length = offset := List.length_take_of_le (by omega)
  rw [put, List.append_assoc, List.drop_left' front, List.take_left]

/-- The region after buffers have been put at their offsets. -/
def fill (region : Bytes) (buffers : List (Nat × Bytes)) : Bytes :=
  buffers.foldl (fun region buffer => put region buffer.1 buffer.2) region

theorem fill_spec {buffers : List (Nat × Bytes)}
    (inside : ∀ b ∈ buffers, b.1 + b.2.length ≤ region.length)
    (apart : buffers.Pairwise fun a b => a.1 + a.2.length ≤ b.1) :
    (fill region buffers).length = region.length ∧
      (∀ i, (∀ b ∈ buffers, ¬ (b.1 ≤ i ∧ i < b.1 + b.2.length)) →
        (fill region buffers)[i]? = region[i]?) ∧
      ∀ b ∈ buffers, ((fill region buffers).drop b.1).take b.2.length = b.2 := by
  induction buffers generalizing region with
  | nil => exact ⟨rfl, fun i _ => rfl, fun _ member => nomatch member⟩
  | cons first rest ih =>
    have room := inside first List.mem_cons_self
    obtain ⟨later, apart⟩ := List.pairwise_cons.1 apart
    obtain ⟨length, unchanged, holds⟩ := @ih (put region first.1 first.2)
      (fun b member => by
        rw [length_put room]
        exact inside b (List.mem_cons_of_mem _ member)) apart
    rw [fill, List.foldl_cons, ← fill]
    refine ⟨length.trans (length_put room), fun i outside => ?_, fun b member => ?_⟩
    · rw [unchanged i fun b member => outside b (List.mem_cons_of_mem _ member),
        getElem?_put_outside room (outside first List.mem_cons_self)]
    · rcases List.mem_cons.1 member with rfl | member
      · -- The buffers put in later start where this one ends, or beyond.
        refine Eq.trans (List.ext_getElem? fun i => ?_) (slice_put room)
        rw [List.getElem?_take, List.getElem?_take, List.getElem?_drop, List.getElem?_drop]
        split
        next here =>
          refine unchanged _ fun c present => ?_
          have := later c present
          omega
        next => rfl
      · exact holds b member

/-- Elements that take equally many bytes each are found at multiples of that. -/
theorem slice_flatMap {α : Type} {xs : List α} {f : α → Bytes} {width : Nat}
    (even : ∀ x, (f x).length = width) {i : Nat} {x : α} (found : xs[i]? = some x) :
    ((xs.flatMap f).drop (i * width)).take width = f x := by
  induction xs generalizing i with
  | nil => simp at found
  | cons y ys ih =>
    cases i with
    | zero =>
      cases found
      rw [Nat.zero_mul, List.drop_zero, List.flatMap_cons, List.take_left' (even x)]
    | succ i =>
      rw [List.getElem?_cons_succ] at found
      have skip : (i + 1) * width = (f y).length + i * width := by
        rw [even, Nat.succ_mul, Nat.add_comm]
      rw [List.flatMap_cons, skip, List.drop_append, Nat.add_sub_cancel_left,
        List.drop_of_length_le (Nat.le_add_right _ _), List.nil_append]
      exact ih found

theorem length_encodeValue {v : Value} (wellFormed : v.WellFormed) :
    (encodeValue v).length = v.ty.sizeInBytes := by
  have each : ∀ xs : List Binary64,
      (xs.flatMap v.ty.kind.encode).length = xs.length * v.ty.kind.size := by
    intro xs
    induction xs with
    | nil => simp
    | cons x xs ih =>
      rw [List.flatMap_cons, List.length_append, ih, ElementKind.encode_length, List.length_cons,
        Nat.succ_mul, Nat.add_comm]
  rw [encodeValue, each, Array.length_toList, wellFormed.size_eq]
  rfl

end Bundle
end TensorGraph
