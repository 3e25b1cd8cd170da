import TensorGraph.Proofs.Tensor.Value

/-!
Rows. The leading dimension counts rows, which lie one after another. Taking rows with
wrap-around gives whole rows of the value, one for each step from the first.
-/

namespace TensorGraph.Value

variable {v w : Value} {ty : TensorType} {batch start length r i : Nat} {sample : List Nat}

def row (v : Value) (r : Nat) : Array Binary64 :=
  v.data.extract (r * v.ty.shape.rowLength) ((r + 1) * v.ty.shape.rowLength)

theorem getElem?_row : (v.row r)[i]? =
    if i < v.ty.shape.rowLength then v.data[r * v.ty.shape.rowLength + i]? else none := by
  rw [row, Array.getElem?_extract, Nat.succ_mul]
  split
  next inside => rw [if_pos (by omega)]
  next outside =>
    split
    next => exact (Array.getElem?_eq_none (by omega)).symm
    next => rfl

theorem wrappedRow_lt (positive : 0 < batch) (start step : Nat) :
    wrappedRow batch start step < batch :=
  Nat.mod_lt _ positive

theorem place_lt {rows length r i : Nat} (r_lt : r < rows) (i_lt : i < length) :
    r * length + i < rows * length :=
  calc r * length + i < (r + 1) * length := by rw [Nat.succ_mul]; omega
    _ ≤ rows * length := Nat.mul_le_mul_right length r_lt

theorem place_div {length r i : Nat} (i_lt : i < length) : (r * length + i) / length = r := by
  rw [Nat.add_comm, Nat.add_mul_div_right _ _ (Nat.zero_lt_of_lt i_lt), Nat.div_eq_of_lt i_lt,
    Nat.zero_add]

theorem place_mod {length r i : Nat} (i_lt : i < length) : (r * length + i) % length = i := by
  rw [Nat.mul_add_mod_self_right, Nat.mod_eq_of_lt i_lt]

theorem rowLength_of_dims (dims : ty.shape.dims = batch :: sample) :
    ty.shape.rowLength = Shape.rowLength ⟨length :: sample⟩ := by
  simp [Shape.rowLength, Shape.trailing, dims]

theorem count_of_dims (dims : ty.shape.dims = batch :: sample) :
    ty.count = batch * ty.shape.rowLength := by
  simp [TensorType.count, Shape.rowLength, Shape.trailing, Shape.count, dims]

theorem WellFormed.rowLength_lt (wellFormed : v.WellFormed)
    (dims : v.ty.shape.dims = batch :: sample) (positive : 0 < batch) :
    v.ty.shape.rowLength < Word.bound :=
  calc v.ty.shape.rowLength ≤ batch * v.ty.shape.rowLength := Nat.le_mul_of_pos_left _ positive
    _ = v.ty.count := (count_of_dims dims).symm
    _ < Word.bound := wellFormed.fits.count_lt

theorem countRows_eq_ok {row : Nat} (small : start + length ≤ Word.bound)
    (fits : (Shape.matrix length row).Fits) : countRows start length row = .ok () := by
  rw [countRows, ← Shape.elements_matrix, fits.elements, ok_bind]
  split
  next positive =>
    rw [Word.add_eq_ok.2 ⟨by omega, rfl⟩]
    rfl
  next => rfl

theorem countRows_overflow {row : Nat} (startWord : start < Word.bound)
    (large : Word.bound < start + length) : countRows start length row = .error .overflow := by
  have past : Word.add start (length - 1) = .error .overflow := if_neg (by omega)
  rw [countRows, ← Shape.elements_matrix]
  by_cases fits : (Shape.matrix length row).Fits
  · rw [fits.elements, ok_bind, if_pos (by omega), past]
    rfl
  · rw [Shape.elements_of_not_fits fits]
    rfl

theorem eq_overflow_of_countRows {row : Nat} {e : Error}
    (failed : countRows start length row = .error e) : e = .overflow := by
  rw [countRows] at failed
  cases counted : Word.mul length row with
  | error e' =>
    rw [counted] at failed
    cases failed
    exact Word.eq_overflow_of_mul counted
  | ok size =>
    rw [counted, ok_bind] at failed
    split at failed
    next =>
      cases last : Word.add start (length - 1) with
      | error e' =>
        rw [last] at failed
        cases failed
        exact Word.eq_overflow_of_check last
      | ok n =>
        rw [last] at failed
        cases failed
    next => cases failed

section

variable (wellFormed : v.WellFormed) (dims : v.ty.shape.dims = batch :: sample)
  (positive : 0 < batch)

include wellFormed dims positive

/-- Up to the counting, nothing is refused. -/
theorem rowsWrapping_bind (start length : Nat) :
    v.rowsWrapping start length = countRows start length v.ty.shape.rowLength >>= fun _ =>
      ofData (v.wrappedRows batch start length) ⟨length :: sample⟩ v.ty.kind := by
  have row : v.ty.shape.rowElements = .ok v.ty.shape.rowLength := by
    have fits := wellFormed.fits
    rw [show v.ty.shape = ⟨batch :: sample⟩ from congrArg Shape.mk dims] at fits ⊢
    exact fits.rowElements positive
  have leading : v.ty.shape.leading = .ok batch := by
    simp [Shape.leading, Shape.dim, dims]
  have replaced : v.ty.shape.withLeading length = .ok ⟨length :: sample⟩ := by
    simp [Shape.withLeading, Shape.withLeading?, dims]
  rw [rowsWrapping, leading, ok_bind, if_neg (Nat.ne_of_gt positive)]
  simp only [row, replaced, ok_bind]

theorem rowsWrapping_eq (small : start + length ≤ Word.bound)
    (fits : Shape.Fits ⟨length :: sample⟩) :
    v.rowsWrapping start length = .ok ⟨⟨v.ty.kind, ⟨length :: sample⟩⟩,
      (v.wrappedRows batch start length).map v.ty.kind.coerce⟩ := by
  have rank : Shape.rank ⟨length :: sample⟩ ≤ Shape.maxRank := by
    have same := wellFormed.rank_le
    rwa [Shape.rank, dims] at same
  have count : Shape.count ⟨length :: sample⟩ = length * v.ty.shape.rowLength := by
    rw [rowLength_of_dims dims, Shape.count_eq_leading_mul]
  have lengthWord : length < Word.bound := (Shape.fits_cons_iff.1 fits).1
  have below := fits.count_lt
  rw [count] at below
  have counted := countRows_eq_ok small
    (Shape.fits_matrix_iff.2 ⟨⟨lengthWord, wellFormed.rowLength_lt dims positive⟩, below⟩)
  rw [rowsWrapping_bind wellFormed dims positive, counted, ok_bind]
  exact ofData_of_size rank fits (by rw [wrappedRows, Array.size_ofFn, count])

/-- A slice that passes the last word, or has more elements than words, ends the program. -/
theorem rowsWrapping_overflow (startWord : start < Word.bound)
    (past : ¬ (start + length ≤ Word.bound ∧ Shape.Fits ⟨length :: sample⟩)) :
    v.rowsWrapping start length = .error .overflow := by
  have rank : Shape.rank ⟨length :: sample⟩ ≤ Shape.maxRank := by
    have same := wellFormed.rank_le
    rwa [Shape.rank, dims] at same
  rw [rowsWrapping_bind wellFormed dims positive]
  cases counted : countRows start length v.ty.shape.rowLength with
  | error e => rw [eq_overflow_of_countRows counted, error_bind]
  | ok u =>
    have unfit : ¬ Shape.Fits ⟨length :: sample⟩ := fun fits => by
      refine past ⟨Nat.le_of_not_lt fun large => ?_, fits⟩
      cases (countRows_overflow startWord large).symm.trans counted
    rw [ok_bind]
    exact ofData_overflow rank unfit

end

theorem wellFormed_of_rowsWrapping (made : v.rowsWrapping start length = .ok w) :
    w.WellFormed := by
  obtain ⟨batch, -, made⟩ := bind_eq_ok.1 made
  split at made
  · cases made
  · obtain ⟨row, -, made⟩ := bind_eq_ok.1 made
    obtain ⟨_, -, made⟩ := bind_eq_ok.1 made
    obtain ⟨shape, -, made⟩ := bind_eq_ok.1 made
    exact wellFormed_of_ofData made

theorem getElem?_wrappedRows (wellFormed : v.WellFormed)
    (dims : v.ty.shape.dims = batch :: sample) (positive : 0 < batch) (r_lt : r < length)
    (i_lt : i < v.ty.shape.rowLength) :
    (v.wrappedRows batch start length)[r * v.ty.shape.rowLength + i]? =
      v.data[wrappedRow batch start r * v.ty.shape.rowLength + i]? := by
  have inside : r * v.ty.shape.rowLength + i < length * v.ty.shape.rowLength :=
    place_lt r_lt i_lt
  have found : wrappedRow batch start r * v.ty.shape.rowLength + i < v.data.size := by
    rw [wellFormed.size_eq, count_of_dims dims]
    exact place_lt (wrappedRow_lt positive start r) i_lt
  rw [wrappedRows, Array.getElem?_ofFn]
  simp only [inside, place_div i_lt, place_mod i_lt, dite_true]
  rw [Array.getElem?_eq_getElem found, Array.getD_eq_getD_getElem?,
    Array.getElem?_eq_getElem found, Option.getD_some]

/-- With a leading dimension `batch`, taking rows that can be counted succeeds and gives whole rows
of the value, starting over after the last. -/
theorem rowsWrapping_ok (wellFormed : v.WellFormed) (dims : v.ty.shape.dims = batch :: sample)
    (positive : 0 < batch) (small : start + length ≤ Word.bound)
    (fits : Shape.Fits ⟨length :: sample⟩) :
    ∃ w, v.rowsWrapping start length = .ok w ∧ w.WellFormed ∧
      w.ty = ⟨v.ty.kind, ⟨length :: sample⟩⟩ ∧
      ∀ r < length, w.row r = v.row ((start + r) % batch) := by
  have made := rowsWrapping_eq wellFormed dims positive small fits
  refine ⟨_, made, wellFormed_of_rowsWrapping made, rfl, fun r inside => ?_⟩
  refine Array.ext_getElem? fun i => ?_
  rw [getElem?_row, getElem?_row, ← rowLength_of_dims dims]
  split
  next i_lt =>
    rw [Array.getElem?_map, getElem?_wrappedRows wellFormed dims positive inside i_lt, wrappedRow]
    cases entry : v.data[(start + r) % batch * v.ty.shape.rowLength + i]? with
    | none => rfl
    | some x => rw [Option.map_some, wellFormed.coerced x (Array.mem_of_getElem? entry)]
  next => rfl

end TensorGraph.Value
