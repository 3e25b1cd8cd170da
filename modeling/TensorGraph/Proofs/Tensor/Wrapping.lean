import TensorGraph.Proofs.Tensor.Rows

/-!
Where taken rows come from. A slice counts its rows from its first one to its last, in words. When
the count stays in the words, the rows are those that follow the first, starting over after the
last row of the value, and a slice is made of two slices one after another.
-/

namespace TensorGraph.Value

variable {v w : Value} {batch start length a b : Nat} {sample : List Nat}

section

variable {kind : ElementKind} {rows : Nat}

theorem WellFormed.size_of_type (good : v.WellFormed) (type : v.ty = ⟨kind, ⟨rows :: sample⟩⟩) :
    v.data.size = rows * Shape.count ⟨sample⟩ := by
  rw [good.size_eq, type, TensorType.count, Shape.count_cons]

theorem getElem?_eq_row (type : v.ty = ⟨kind, ⟨rows :: sample⟩⟩)
    (nonempty : 0 < Shape.count ⟨sample⟩) (i : Nat) :
    v.data[i]? = (v.row (i / Shape.count ⟨sample⟩))[i % Shape.count ⟨sample⟩]? := by
  have rowLength : v.ty.shape.rowLength = Shape.count ⟨sample⟩ := by
    rw [type]
    rfl
  rw [getElem?_row, rowLength, if_pos (Nat.mod_lt i nonempty), Nat.div_add_mod']

theorem data_eq_append {first second : Value} (good : v.WellFormed)
    (goodFirst : first.WellFormed) (goodSecond : second.WellFormed)
    (type : v.ty = ⟨kind, ⟨(a + b) :: sample⟩⟩) (typeFirst : first.ty = ⟨kind, ⟨a :: sample⟩⟩)
    (typeSecond : second.ty = ⟨kind, ⟨b :: sample⟩⟩)
    (before : ∀ r < a, v.row r = first.row r) (after : ∀ r < b, v.row (a + r) = second.row r) :
    v.data = first.data ++ second.data := by
  have size := good.size_of_type type
  have sizeFirst := goodFirst.size_of_type typeFirst
  have sizeSecond := goodSecond.size_of_type typeSecond
  apply Array.ext
  · rw [Array.size_append, size, sizeFirst, sizeSecond, Nat.add_mul]
  intro i inside _
  have nonempty : 0 < Shape.count ⟨sample⟩ :=
    Nat.pos_of_mul_pos_left (size ▸ Nat.zero_lt_of_lt inside)
  apply Option.some.inj
  rw [← Array.getElem?_eq_getElem, ← Array.getElem?_eq_getElem, getElem?_eq_row type nonempty]
  obtain left | right := Nat.lt_or_ge i first.data.size
  · rw [Array.getElem?_append_left left, getElem?_eq_row typeFirst nonempty, before]
    exact Nat.div_lt_of_lt_mul (by rwa [Nat.mul_comm, ← sizeFirst])
  · obtain ⟨j, rfl⟩ := Nat.exists_eq_add_of_le right
    have later : j < b * Shape.count ⟨sample⟩ := by
      rw [size, sizeFirst, Nat.add_mul] at inside
      exact Nat.lt_of_add_lt_add_left inside
    rw [Array.getElem?_append_right right, Nat.add_sub_cancel_left,
      getElem?_eq_row typeSecond nonempty, sizeFirst, Nat.mul_comm a, Nat.mul_add_div nonempty,
      Nat.mul_add_mod, after]
    exact Nat.div_lt_of_lt_mul (by rwa [Nat.mul_comm])

end

/-- A slice that can be counted is two slices one after another. -/
theorem rowsWrapping_append (good : v.WellFormed) (dims : v.ty.shape.dims = batch :: sample)
    (positive : 0 < batch) (small : start + (a + b) ≤ Word.bound)
    (fits : Shape.Fits ⟨(a + b) :: sample⟩) :
    ∃ whole first second, v.rowsWrapping start (a + b) = .ok whole ∧
      v.rowsWrapping start a = .ok first ∧
      v.rowsWrapping ((start + a) % batch) b = .ok second ∧
      whole.data = first.data ++ second.data := by
  -- The second part may start at the row the first one reaches, which is no later.
  have back := Nat.mod_le (start + a) batch
  have smallFirst : start + a ≤ Word.bound := by omega
  have smallSecond : (start + a) % batch + b ≤ Word.bound := by omega
  obtain ⟨whole, made, goodWhole, type, rows⟩ := rowsWrapping_ok good dims positive small fits
  obtain ⟨first, madeFirst, goodFirst, typeFirst, rowsFirst⟩ :=
    rowsWrapping_ok good dims positive smallFirst (fits.fewer (Nat.le_add_right a b))
  obtain ⟨second, madeSecond, goodSecond, typeSecond, rowsSecond⟩ :=
    rowsWrapping_ok good dims positive smallSecond (fits.fewer (Nat.le_add_left b a))
  refine ⟨whole, first, second, made, madeFirst, madeSecond,
    data_eq_append goodWhole goodFirst goodSecond type typeFirst typeSecond ?before ?after⟩
  case before =>
    intro r inside
    rw [rows r (by omega), rowsFirst r inside]
  case after =>
    intro r inside
    rw [rows (a + r) (by omega), rowsSecond r inside, Nat.mod_add_mod, Nat.add_assoc]

/-- Taking rows of a tensor with a non-empty leading dimension `batch` gives a tensor of the same
kind and trailing dimensions, whose row `r` is the row `r` rows after `start`, wrapping past the
last, and which is made of two such slices, the second from the row at which the first ends. This is
so exactly if the number of no row it goes through passes the last word and the elements can be
counted; any other slice stops the program. -/
theorem rows_follow_iff (good : v.WellFormed) (dims : v.ty.shape.dims = batch :: sample)
    (positive : 0 < batch) (startWord : start < Word.bound) (length : Nat) :
    (start + length ≤ Word.bound ∧ Shape.Fits ⟨length :: sample⟩ ↔
      ∃ w, v.rowsWrapping start length = .ok w) ∧
    (∀ w, v.rowsWrapping start length = .ok w →
      w.WellFormed ∧ w.ty = ⟨v.ty.kind, ⟨length :: sample⟩⟩ ∧
      (∀ r < length, w.row r = v.row ((start + r) % batch)) ∧
      ∀ a b, a + b = length → ∃ first second, v.rowsWrapping start a = .ok first ∧
        v.rowsWrapping ((start + a) % batch) b = .ok second ∧
        w.data = first.data ++ second.data) ∧
    (¬ (start + length ≤ Word.bound ∧ Shape.Fits ⟨length :: sample⟩) →
      v.rowsWrapping start length = .error .overflow) := by
  have stops (past : ¬ (start + length ≤ Word.bound ∧ Shape.Fits ⟨length :: sample⟩)) :
      v.rowsWrapping start length = .error .overflow :=
    rowsWrapping_overflow good dims positive startWord past
  have counted {w} (made : v.rowsWrapping start length = .ok w) :
      start + length ≤ Word.bound ∧ Shape.Fits ⟨length :: sample⟩ := by
    refine Decidable.byContradiction fun past => ?_
    cases (stops past).symm.trans made
  refine ⟨⟨?taken, fun ⟨w, made⟩ => counted made⟩, ?rows, stops⟩
  case taken =>
    rintro ⟨small, fits⟩
    obtain ⟨w, made, -⟩ := rowsWrapping_ok good dims positive small fits
    exact ⟨w, made⟩
  case rows =>
    intro w made
    obtain ⟨small, fits⟩ := counted made
    obtain ⟨_, madeToo, goodTaken, type, rows⟩ := rowsWrapping_ok good dims positive small fits
    cases made.symm.trans madeToo
    refine ⟨goodTaken, type, rows, ?_⟩
    rintro a b rfl
    obtain ⟨_, first, second, madeToo, parts⟩ := rowsWrapping_append good dims positive small fits
    cases made.symm.trans madeToo
    exact ⟨first, second, parts⟩

/-- Three rows of two elements: from row 4 on five rows, which start over twice, in two parts. -/
theorem rows_follow_iff_three :
    let v : Value := ⟨⟨.int8, ⟨[3, 2]⟩⟩,
      #[.ofInt 1, .ofInt 2, .ofInt 3, .ofInt 4, .ofInt 5, .ofInt 6]⟩
    v.WellFormed ∧ 4 < Word.bound ∧ 4 + 5 ≤ Word.bound ∧
      ∃ whole first second, v.rowsWrapping 4 5 = .ok whole ∧ whole.ty = ⟨.int8, ⟨[5, 2]⟩⟩ ∧
        (∀ r < 5, whole.row r = v.row ((4 + r) % 3)) ∧
        v.rowsWrapping 4 3 = .ok first ∧ v.rowsWrapping 1 2 = .ok second ∧
        whole.data = first.data ++ second.data := by
  intro v
  have good : v.WellFormed := ⟨by decide, by decide, by decide, by decide +kernel⟩
  have dims : v.ty.shape.dims = 3 :: [2] := rfl
  have startWord : 4 < Word.bound := by decide
  obtain ⟨taken, rows, -⟩ := rows_follow_iff good dims (by decide) startWord 5
  obtain ⟨whole, made⟩ := taken.1 ⟨by decide, by decide⟩
  obtain ⟨-, type, follow, parts⟩ := rows whole made
  obtain ⟨first, second, madeFirst, madeSecond, data⟩ := parts 3 2 rfl
  exact ⟨good, by decide, by decide, whole, first, second, made, type, follow, madeFirst,
    madeSecond, data⟩

/-- Of three rows, the one that follows row 2^64 - 1 is the second, but there is no slice of both:
the sum of the first row's number and the step passes the last word. -/
theorem no_row_after_last_word :
    let v : Value := ⟨⟨.double, ⟨[3]⟩⟩, #[.ofInt 10, .ofInt 20, .ofInt 30]⟩
    let start := 18446744073709551615
    v.WellFormed ∧ start < Word.bound ∧ 2 < Word.bound ∧
      v.row (start % 3) = #[.ofInt 10] ∧ v.row ((start + 1) % 3) = #[.ofInt 20] ∧
      v.rowsWrapping start 2 = .error .overflow ∧ ¬ ∃ w, v.rowsWrapping start 2 = .ok w := by
  intro v start
  have good : v.WellFormed := ⟨by decide, by decide, by decide, by decide +kernel⟩
  have dims : v.ty.shape.dims = 3 :: [] := rfl
  have stops : v.rowsWrapping start 2 = .error .overflow :=
    rowsWrapping_overflow good dims (by decide) (by decide) (by decide)
  refine ⟨good, by decide, by decide, by decide +kernel, by decide +kernel, stops, ?_⟩
  rintro ⟨w, made⟩
  cases stops.symm.trans made

end TensorGraph.Value
