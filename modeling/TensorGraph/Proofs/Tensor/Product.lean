import TensorGraph.Proofs.Number.Sums
import TensorGraph.Proofs.Tensor.Rows

/-!
Products and transposes of matrices, entry by entry. A term that is skipped because its left factor
is zero would not have changed the sum as long as all elements are finite, so a product is the plain
sum of its terms, and transposing it swaps the factors.
-/

namespace TensorGraph

/-- Skipping zeros on the left does not show in an entry of a product of finite elements. -/
theorem Matrix.entry_eq_sum {a b : Array Binary64} (left : ∀ i, (a.getD i default).isFinite)
    (right : ∀ i, (b.getD i default).isFinite) (inner cols row col : Nat) :
    entry a b inner cols row col = Binary64.sum inner fun p =>
      a.getD (row * inner + p) default * b.getD (p * cols + col) default := by
  -- Only the number of terms grows: the width of a row stays.
  have upTo (count : Nat) : (count.fold (fun p _ s =>
      let x := a.getD (row * inner + p) default
      if x.isZero then s else s + x * b.getD (p * cols + col) default) (.zero false)) =
      Binary64.sum count fun p =>
        a.getD (row * inner + p) default * b.getD (p * cols + col) default := by
    induction count with
    | zero => simp only [Nat.fold_zero, Binary64.sum, List.range_zero, List.foldl_nil]
    | succ count ih =>
      have running := Binary64.running_sum fun p (_ : p < count) =>
        Binary64.isNaN_mul (left (row * inner + p)) (right (p * cols + col))
      simp only [Nat.fold_succ, ih, Binary64.sum_succ]
      split
      next blank =>
        have nothing := Binary64.isZero_mul (left _) (right (count * cols + col)) blank
        exact (running.add_isZero nothing).symm
      next => rfl
  exact upTo inner

namespace Value

variable {a b v : Value} {m k n rows cols : Nat}

def entry (v : Value) (row col : Nat) : Binary64 :=
  v.data.getD (row * v.ty.shape.rowLength + col) default

def Finite (v : Value) : Prop := ∀ x ∈ v.data, x.isFinite

instance : Decidable v.Finite := inferInstanceAs (Decidable (∀ x ∈ v.data, x.isFinite))

@[simp] theorem rowLength_matrix (rows cols : Nat) : (Shape.matrix rows cols).rowLength = cols := by
  simp [Shape.rowLength, Shape.trailing, Shape.matrix]

theorem entry_eq (shape : v.ty.shape = .matrix rows cols) (r c : Nat) :
    v.entry r c = v.data.getD (r * cols + c) default := by
  simp [entry, shape]

theorem WellFormed.size_matrix (wellFormed : v.WellFormed) (shape : v.ty.shape = .matrix rows cols) :
    v.data.size = rows * cols := by
  simp [wellFormed.size_eq, TensorType.count, shape]

theorem ext_entry (rows cols : Nat) (left : a.WellFormed) (right : b.WellFormed) (type : a.ty = b.ty)
    (shape : a.ty.shape = .matrix rows cols)
    (entries : ∀ r < rows, ∀ c < cols, a.entry r c = b.entry r c) : a = b := by
  have shape' : b.ty.shape = .matrix rows cols := type ▸ shape
  have size := left.size_matrix shape
  have size' := right.size_matrix shape'
  have data : a.data = b.data := by
    apply Array.ext (size.trans size'.symm)
    intro i inside inside'
    have filled : 0 < cols := by
      apply Nat.pos_of_ne_zero
      rintro rfl
      simp [size] at inside
    have here := entries (i / cols) (Nat.div_lt_of_lt_mul (by rwa [Nat.mul_comm, ← size])) (i % cols)
      (Nat.mod_lt i filled)
    rw [entry_eq shape, entry_eq shape', Nat.div_add_mod'] at here
    simpa [Array.getD_eq_getD_getElem?, inside, inside'] using here
  cases a
  cases b
  simp_all

theorem Finite.getD (finite : v.Finite) (i : Nat) : (v.data.getD i default).isFinite := by
  rw [Array.getD_eq_getD_getElem?]
  cases found : v.data[i]? with
  | none => decide
  | some x => exact finite x (Array.mem_of_getElem? found)

theorem transpose_spec (wellFormed : v.WellFormed) (shape : v.ty.shape = .matrix rows cols) :
    ∃ t, v.transpose = .ok t ∧ t.WellFormed ∧ t.ty = ⟨v.ty.kind, .matrix cols rows⟩ ∧
      ∀ r < rows, ∀ c < cols, t.entry c r = v.entry r c := by
  have made := transpose_eq wellFormed shape
  refine ⟨_, made, wellFormed_of_transpose made, rfl, fun r inside c inside' => ?_⟩
  have place : c * rows + r < rows * cols := by
    simpa [Nat.mul_comm rows] using place_lt inside' inside
  rw [entry_eq rfl, entry_eq shape]
  simp [Matrix.transposed, Array.getD_eq_getD_getElem?, place, place_div inside, place_mod inside]

theorem transpose_transpose (wellFormed : v.WellFormed) (shape : v.ty.shape = .matrix rows cols)
    {t : Value} (made : v.transpose = .ok t) : t.transpose = .ok v := by
  obtain ⟨_, made', good, type, moved⟩ := transpose_spec wellFormed shape
  cases made.symm.trans made'
  have shape' : t.ty.shape = .matrix cols rows := by rw [type]
  obtain ⟨u, again, good', type', back⟩ := transpose_spec good shape'
  have same : u = v := by
    apply ext_entry rows cols good' wellFormed
    · rw [type', type, ← shape]
    · rw [type']
    · intro r inside c inside'
      rw [back c inside' r inside, moved r inside c inside']
  rw [again, same]

theorem Finite.transpose (finite : v.Finite) (wellFormed : v.WellFormed)
    (shape : v.ty.shape = .matrix rows cols) {t : Value} (made : v.transpose = .ok t) :
    t.Finite := by
  rw [transpose_eq wellFormed shape] at made
  cases made
  intro x member
  obtain ⟨i, rfl⟩ := Array.mem_ofFn.1 member
  exact finite.getD _

theorem matmul_spec (kind : a.ty.kind = b.ty.kind) (left : a.ty.shape = .matrix m k)
    (right : b.ty.shape = .matrix k n) (fits : (Shape.matrix m n).Fits) (finite : a.Finite)
    (finite' : b.Finite) :
    ∃ c, a.matmul b = .ok c ∧ c.WellFormed ∧ c.ty = ⟨a.ty.kind, .matrix m n⟩ ∧
      ∀ i < m, ∀ j < n, c.entry i j =
        a.ty.kind.coerce (Binary64.sum k fun p => a.entry i p * b.entry p j) := by
  have made := matmul_eq kind left right fits
  refine ⟨_, made, wellFormed_of_matmul made, rfl, fun i inside j inside' => ?_⟩
  have place : i * n + j < m * n := place_lt inside inside'
  have total : Matrix.entry a.data b.data k n i j =
      Binary64.sum k fun p => a.entry i p * b.entry p j := by
    simp only [entry_eq left, entry_eq right]
    exact Matrix.entry_eq_sum finite.getD finite'.getD k n i j
  rw [entry_eq rfl]
  simp [Matrix.productRows, Array.getD_eq_getD_getElem?, place, place_div inside',
    place_mod inside', total]

theorem transpose_matmul (good : a.WellFormed) (good' : b.WellFormed)
    (kind : a.ty.kind = b.ty.kind) (left : a.ty.shape = .matrix m k)
    (right : b.ty.shape = .matrix k n) (fits : (Shape.matrix m n).Fits) (finite : a.Finite)
    (finite' : b.Finite) {c s t : Value}
    (product : a.matmul b = .ok c) (first : a.transpose = .ok s) (second : b.transpose = .ok t) :
    ∃ u, c.transpose = .ok u ∧ t.matmul s = .ok u := by
  obtain ⟨_, made, goodProduct, type, entries⟩ := matmul_spec kind left right fits finite finite'
  cases product.symm.trans made
  obtain ⟨_, made, -, typeFirst, movedFirst⟩ := transpose_spec good left
  cases first.symm.trans made
  obtain ⟨_, made, -, typeSecond, movedSecond⟩ := transpose_spec good' right
  cases second.symm.trans made
  obtain ⟨u, turned, goodTurned, typeTurned, movedTurned⟩ :=
    transpose_spec goodProduct (show c.ty.shape = .matrix m n by rw [type])
  obtain ⟨w, swapped, goodSwapped, typeSwapped, entriesSwapped⟩ :=
    matmul_spec (a := t) (b := s) (m := n) (k := k) (n := m) (by simp [typeFirst, typeSecond, kind])
      (by rw [typeSecond]) (by rw [typeFirst]) fits.transposed
      (finite'.transpose good' right second) (finite.transpose good left first)
  have same : u = w := by
    apply ext_entry n m goodTurned goodSwapped
    · simp [typeTurned, typeSwapped, type, typeSecond, kind]
    · rw [typeTurned]
    · intro j before i above
      have terms : ∀ p < k, a.entry i p * b.entry p j = t.entry j p * s.entry p i := by
        intro p inside
        rw [movedSecond p inside j before, movedFirst i above p inside]
        exact Binary64.mul_comm_of_finite (finite.getD _) (finite'.getD _)
      rw [movedTurned i above j before, entries i above j before, entriesSwapped j before i above,
        Binary64.sum_congr terms, typeSecond, kind]
  exact ⟨u, turned, same ▸ swapped⟩

/-- Matrix operations are the mathematical ones. Every matrix has a transpose, which has each entry
with row and column swapped and whose own transpose is the matrix. For two matrices of one kind that
fit and hold finite numbers, the product has in each place the coerced sum, from left to right and
starting at positive zero, of all products of the entries of that row and column, zeros included; and
its transpose is the product of the transposes, the other way round, bit for bit. This is so as long
as the number of its entries is a word. Otherwise the program stops, in either product. -/
theorem matrix_operations (good : a.WellFormed) (good' : b.WellFormed)
    (kind : a.ty.kind = b.ty.kind) (left : a.ty.shape = .matrix m k)
    (right : b.ty.shape = .matrix k n) (finite : a.Finite) (finite' : b.Finite) :
    (∀ (v : Value) (rows cols : Nat), v.WellFormed → v.ty.shape = .matrix rows cols →
      ∃ t, v.transpose = .ok t ∧ t.WellFormed ∧ t.ty = ⟨v.ty.kind, .matrix cols rows⟩ ∧
        (∀ r < rows, ∀ c < cols, t.entry c r = v.entry r c) ∧ t.transpose = .ok v) ∧
    ∃ s t, a.transpose = .ok s ∧ b.transpose = .ok t ∧
      (m * n < Word.bound → ∃ c u, a.matmul b = .ok c ∧ c.WellFormed ∧
        c.ty = ⟨a.ty.kind, .matrix m n⟩ ∧
        (∀ i < m, ∀ j < n, c.entry i j =
          a.ty.kind.coerce (Binary64.sum k fun p => a.entry i p * b.entry p j)) ∧
        c.transpose = .ok u ∧ t.matmul s = .ok u) ∧
      (Word.bound ≤ m * n → a.matmul b = .error .overflow ∧ t.matmul s = .error .overflow) := by
  refine ⟨fun v rows cols wellFormed shape => ?_, ?_⟩
  · obtain ⟨t, made, goodTurned, type, moved⟩ := transpose_spec wellFormed shape
    exact ⟨t, made, goodTurned, type, moved, transpose_transpose wellFormed shape made⟩
  obtain ⟨s, first, -, typeFirst, -⟩ := transpose_spec good left
  obtain ⟨t, second, -, typeSecond, -⟩ := transpose_spec good' right
  refine ⟨s, t, first, second, fun small => ?_, fun large => ?_⟩
  · -- Rows and columns are those of the factors, so only their product is in question.
    have rows := (Shape.fits_matrix_iff.1 (left ▸ good.fits)).1.1
    have cols := (Shape.fits_matrix_iff.1 (right ▸ good'.fits)).1.2
    have fits : (Shape.matrix m n).Fits := Shape.fits_matrix_iff.2 ⟨⟨rows, cols⟩, small⟩
    obtain ⟨c, product, goodProduct, type, entries⟩ :=
      matmul_spec kind left right fits finite finite'
    obtain ⟨u, turned, swapped⟩ :=
      transpose_matmul good good' kind left right fits finite finite' product first second
    exact ⟨c, u, product, goodProduct, type, entries, turned, swapped⟩
  · have unfit : ¬ (Shape.matrix m n).Fits := fun fits =>
      Nat.not_lt_of_le large (Shape.fits_matrix_iff.1 fits).2
    exact ⟨matmul_overflow kind left right unfit,
      matmul_overflow (by simp [typeFirst, typeSecond, kind]) (by rw [typeSecond])
        (by rw [typeFirst]) fun fits => unfit fits.transposed⟩

/-- A row with a zero in it times a matrix with a zero in another place. -/
theorem matrix_operations_zeros :
    let a : Value := ⟨⟨.int8, .matrix 1 2⟩, #[.zero true, .ofInt 2]⟩
    let b : Value := ⟨⟨.int8, .matrix 2 2⟩, #[.ofInt 5, .ofInt (-1), .zero false, .ofInt 100]⟩
    a.WellFormed ∧ b.WellFormed ∧ a.Finite ∧ b.Finite ∧ 1 * 2 < Word.bound ∧
    ∃ c s t u, a.matmul b = .ok c ∧ c.ty = ⟨.int8, .matrix 1 2⟩ ∧
      c.entry 0 1 = ElementKind.int8.coerce (Binary64.sum 2 fun p => a.entry 0 p * b.entry p 1) ∧
      a.transpose = .ok s ∧ s.transpose = .ok a ∧ b.transpose = .ok t ∧ c.transpose = .ok u ∧
      t.matmul s = .ok u := by
  intro a b
  have good : a.WellFormed := ⟨by decide, by decide, by decide, by decide +kernel⟩
  have good' : b.WellFormed := ⟨by decide, by decide, by decide, by decide +kernel⟩
  have finite : a.Finite := by decide +kernel
  have finite' : b.Finite := by decide +kernel
  obtain ⟨transposes, s, t, first, second, products, -⟩ :=
    matrix_operations (m := 1) (k := 2) (n := 2) good good' rfl rfl rfl finite finite'
  obtain ⟨c, u, product, -, type, entries, turned, swapped⟩ := products (by decide)
  obtain ⟨s', made, -, -, -, back⟩ := transposes a 1 2 good rfl
  cases first.symm.trans made
  exact ⟨good, good', finite, finite', by decide, c, s, t, u, product, type,
    entries 0 (by decide) 1 (by decide), first, back, second, turned, swapped⟩

/-- Two matrices without elements whose product has 2^64 entries. -/
theorem wide_product_overflows :
    let a : Value := ⟨⟨.float, .matrix 4294967296 0⟩, #[]⟩
    let b : Value := ⟨⟨.float, .matrix 0 4294967296⟩, #[]⟩
    a.WellFormed ∧ b.WellFormed ∧ a.Finite ∧ b.Finite ∧
      a.matmul b = .error .overflow ∧ ¬ ∃ c, a.matmul b = .ok c := by
  intro a b
  have stops : a.matmul b = .error .overflow := by rfl
  refine ⟨⟨by decide, by decide, by decide, nofun⟩, ⟨by decide, by decide, by decide, nofun⟩, nofun,
    nofun, stops, ?_⟩
  rintro ⟨c, made⟩
  cases stops.symm.trans made

end Value
end TensorGraph
