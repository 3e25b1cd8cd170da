import TensorGraph.Proofs.Control
import TensorGraph.Proofs.Number.Coercion
import TensorGraph.Tensor.Matrix

/-!
What the operations on values give. On well-formed operands of the right types each one
succeeds, and the elements of its result are written out. Every result is well formed.
-/

namespace TensorGraph

theorem ElementKind.coerce_default (kind : ElementKind) :
    kind.coerce default = default := by
  cases kind <;> decide +kernel

namespace Shape

variable {s : Shape}

theorem validate_eq_ok : s.validate = .ok () ↔ s.rank ≤ maxRank := by simp [validate]

theorem matrixDims_eq_ok {rows cols : Nat} :
    s.matrixDims = .ok (rows, cols) ↔ s = matrix rows cols := by
  constructor
  · intro made
    unfold matrixDims matrix? at made
    split at made
    next found =>
      split at found
      next dims =>
        cases found
        cases made
        exact congrArg Shape.mk dims
      next => cases found
    next => cases made
  · rintro rfl
    rfl

theorem rank_matrix (rows cols : Nat) : (matrix rows cols).rank ≤ maxRank :=
  show 2 ≤ 6 by decide

end Shape

section

variable {a b : Array Binary64} {first last rows inner cols : Nat}

theorem Matrix.multiplyRows_of_fits (length : last - first = rows)
    (fits : (Shape.matrix rows cols).Fits) :
    multiplyRows a b first last inner cols = .ok (productRows a b first last inner cols) := by
  rw [multiplyRows, length, ← Shape.elements_matrix, fits.elements]
  rfl

theorem Matrix.multiplyRows_of_not_fits (length : last - first = rows)
    (unfit : ¬ (Shape.matrix rows cols).Fits) :
    multiplyRows a b first last inner cols = .error .overflow := by
  rw [multiplyRows, length, ← Shape.elements_matrix, Shape.elements_of_not_fits unfit]
  rfl

end

namespace Value

theorem ofData_of_size {data : Array Binary64} {shape : Shape} {kind : ElementKind}
    (rank : shape.rank ≤ Shape.maxRank) (fits : shape.Fits) (size : data.size = shape.count) :
    ofData data shape kind = .ok ⟨⟨kind, shape⟩, data.map kind.coerce⟩ :=
  ofData_eq_ok_iff.2 ⟨rank, ⟨fits, size.symm⟩, rfl⟩

theorem ofData_overflow {data : Array Binary64} {shape : Shape} {kind : ElementKind}
    (rank : shape.rank ≤ Shape.maxRank) (unfit : ¬ shape.Fits) :
    ofData data shape kind = .error .overflow := by
  rw [ofData, Shape.validate_eq_ok.2 rank, ok_bind, Shape.expectCount_of_not_fits unfit]
  rfl

theorem wellFormed_of_ofData {data : Array Binary64} {shape : Shape} {kind : ElementKind}
    {v : Value} (h : ofData data shape kind = .ok v) : v.WellFormed := by
  obtain ⟨rank, ⟨fits, count⟩, rfl⟩ := ofData_eq_ok_iff.1 h
  refine ⟨rank, fits, by simpa [TensorType.count] using count.symm, ?_⟩
  intro x member
  obtain ⟨y, -, rfl⟩ := Array.mem_map.1 member
  exact kind.coerce_coerce y

theorem wellFormed_of_zeros {ty : TensorType} {v : Value} (h : zeros ty = .ok v) :
    v.WellFormed := by
  obtain ⟨_, -, h⟩ := bind_eq_ok.1 h
  obtain ⟨-, -, made⟩ := bind_eq_ok.1 h
  exact wellFormed_of_ofData made

theorem wellFormed_of_unary {f : Unary} {v r : Value} (h : v.unary f = .ok r) : r.WellFormed :=
  wellFormed_of_ofData h

theorem wellFormed_of_binary {f : Binary} {a b r : Value} (h : binary f a b = .ok r) :
    r.WellFormed := by
  obtain ⟨-, -, made⟩ := bind_eq_ok.1 h
  exact wellFormed_of_ofData made

theorem wellFormed_of_addRelu {a b r : Value} (h : addRelu a b = .ok r) : r.WellFormed := by
  obtain ⟨_, -, cut⟩ := bind_eq_ok.1 h
  exact wellFormed_of_unary cut

theorem wellFormed_of_reshape {v r : Value} {shape : Shape} (h : v.reshape shape = .ok r) :
    r.WellFormed := by
  obtain ⟨_, -, h⟩ := bind_eq_ok.1 h
  obtain ⟨-, -, made⟩ := bind_eq_ok.1 h
  exact wellFormed_of_ofData made

theorem wellFormed_of_transpose {v r : Value} (h : v.transpose = .ok r) : r.WellFormed := by
  obtain ⟨_, -, h⟩ := bind_eq_ok.1 h
  obtain ⟨_, -, made⟩ := bind_eq_ok.1 h
  exact wellFormed_of_ofData made

theorem overwrite_eq_ok {v w : Value} {data : Array Binary64} :
    v.overwrite data = .ok w ↔ (v.ty.shape.Fits ∧ v.ty.shape.count = data.size) ∧
      w = { v with data := data.map v.ty.kind.coerce } := by
  rw [← Shape.expectCount_eq_ok]
  cases counted : v.ty.shape.expectCount data.size <;> simp [overwrite, counted, eq_comm]

theorem wellFormed_of_overwrite {v w : Value} {data : Array Binary64} (h : v.WellFormed)
    (made : v.overwrite data = .ok w) : w.WellFormed := by
  obtain ⟨⟨fits, count⟩, rfl⟩ := overwrite_eq_ok.1 made
  refine ⟨h.rank_le, fits, by simpa [TensorType.count] using count.symm, ?_⟩
  intro x member
  obtain ⟨y, -, rfl⟩ := Array.mem_map.1 member
  exact v.ty.kind.coerce_coerce y

theorem wellFormed_of_matmul {a b r : Value} (h : a.matmul b = .ok r) : r.WellFormed := by
  obtain ⟨_, -, h⟩ := bind_eq_ok.1 h
  obtain ⟨_, -, h⟩ := bind_eq_ok.1 h
  simp only [except_throw, error_bind] at h
  split at h
  · cases h
  · split at h
    · cases h
    · obtain ⟨_, -, made⟩ := bind_eq_ok.1 h
      exact wellFormed_of_ofData made

theorem WellFormed.map_coerce {v : Value} (h : v.WellFormed) :
    v.data.map v.ty.kind.coerce = v.data := by
  rw [Array.map_congr_left h.coerced, Array.map_id']

theorem duplicate_eq {v : Value} (h : v.WellFormed) : v.duplicate = .ok v := by
  rw [duplicate, ofData_of_size h.rank_le h.fits h.size_eq, h.map_coerce]

theorem unary_eq {v : Value} (h : v.WellFormed) (f : Unary) :
    v.unary f = .ok ⟨v.ty, v.data.map fun x => v.ty.kind.coerce (f.apply x)⟩ := by
  rw [unary, map, ofData_of_size h.rank_le h.fits (by rw [Array.size_map]; exact h.size_eq),
    Array.map_map]
  rfl

theorem binary_eq {a b : Value} (ha : a.WellFormed) (hb : b.WellFormed) (same : a.ty = b.ty)
    (f : Binary) :
    binary f a b = .ok ⟨a.ty,
      Array.zipWith (fun x y => a.ty.kind.coerce (f.applyAt a.ty.kind x y)) a.data b.data⟩ := by
  have size : (Array.zipWith (f.applyAt a.ty.kind) a.data b.data).size = a.ty.shape.count := by
    rw [Array.size_zipWith, ha.size_eq, hb.size_eq, same, Nat.min_self, TensorType.count]
  rw [binary, zipMap, TensorType.expectEq_ok_iff.2 same, ok_bind,
    ofData_of_size ha.rank_le ha.fits size, Array.map_zipWith]

theorem reshape_eq {v : Value} (h : v.WellFormed) {shape : Shape}
    (rank : shape.rank ≤ Shape.maxRank) (fits : shape.Fits) (count : shape.count = v.ty.count) :
    v.reshape shape = .ok ⟨⟨v.ty.kind, shape⟩, v.data⟩ := by
  have counted : shape.expectCount v.ty.shape.count = .ok () :=
    Shape.expectCount_eq_ok.2 ⟨fits, count⟩
  rw [reshape, h.fits.elements, ok_bind, counted, ok_bind,
    ofData_of_size rank fits (by rw [h.size_eq, count]), h.map_coerce]

section

variable {a b : Value} {m k n : Nat}

theorem matmul_rows (kind : a.ty.kind = b.ty.kind) (left : a.ty.shape = .matrix m k)
    (right : b.ty.shape = .matrix k n) :
    a.matmul b = Matrix.multiplyRows a.data b.data 0 m k n >>=
      (ofData · (.matrix m n) a.ty.kind) := by
  rw [matmul, left, right, Shape.matrixDims_eq_ok.2 rfl, Shape.matrixDims_eq_ok.2 rfl]
  simp only [ok_bind, kind, ne_eq, not_true_eq_false, if_false]

theorem matmul_eq (kind : a.ty.kind = b.ty.kind) (left : a.ty.shape = .matrix m k)
    (right : b.ty.shape = .matrix k n) (fits : (Shape.matrix m n).Fits) :
    a.matmul b = .ok ⟨⟨a.ty.kind, .matrix m n⟩,
      (Matrix.productRows a.data b.data 0 m k n).map a.ty.kind.coerce⟩ := by
  have size : (Matrix.productRows a.data b.data 0 m k n).size = (Shape.matrix m n).count := by
    simp [Matrix.productRows]
  rw [matmul_rows kind left right, Matrix.multiplyRows_of_fits m.sub_zero fits, ok_bind]
  exact ofData_of_size (Shape.rank_matrix m n) fits size

theorem matmul_overflow (kind : a.ty.kind = b.ty.kind) (left : a.ty.shape = .matrix m k)
    (right : b.ty.shape = .matrix k n) (unfit : ¬ (Shape.matrix m n).Fits) :
    a.matmul b = .error .overflow := by
  rw [matmul_rows kind left right, Matrix.multiplyRows_of_not_fits m.sub_zero unfit]
  rfl

end

theorem transpose_eq {v : Value} (h : v.WellFormed) {rows cols : Nat}
    (shape : v.ty.shape = .matrix rows cols) :
    v.transpose =
      .ok ⟨⟨v.ty.kind, .matrix cols rows⟩, Matrix.transposed v.data rows cols⟩ := by
  have size : (Matrix.transposed v.data rows cols).size = (Shape.matrix cols rows).count := by
    simp [Matrix.transposed, Nat.mul_comm]
  have still : (Matrix.transposed v.data rows cols).map v.ty.kind.coerce =
      Matrix.transposed v.data rows cols := by
    refine (Array.map_congr_left fun x member => ?_).trans (Array.map_id' _)
    obtain ⟨i, rfl⟩ := Array.mem_ofFn.1 member
    rw [Array.getD_eq_getD_getElem?]
    cases entry : v.data[(i : Nat) % rows * cols + i / rows]? with
    | none => exact v.ty.kind.coerce_default
    | some x => exact h.coerced x (Array.mem_of_getElem? entry)
  have fits : (Shape.matrix rows cols).Fits := shape ▸ h.fits
  have counted : Word.mul rows cols = .ok (Shape.matrix rows cols).count := by
    rw [← Shape.elements_matrix, fits.elements]
  rw [transpose, shape, Shape.matrixDims_eq_ok.2 rfl]
  simp only [ok_bind, counted]
  exact (ofData_of_size (Shape.rank_matrix cols rows) fits.transposed size).trans (by rw [still])

/-- The two steps of a cut-off sum, each of which coerces. -/
theorem addRelu_eq {a b : Value} (ha : a.WellFormed) (hb : b.WellFormed) (same : a.ty = b.ty) :
    addRelu a b = .ok ⟨a.ty, Array.zipWith
      (fun x y => a.ty.kind.coerce (relu (a.ty.kind.coerce (x + y)))) a.data b.data⟩ := by
  have sum := binary_eq ha hb same .add
  rw [addRelu, sum, ok_bind, unary_eq (wellFormed_of_binary sum), Array.map_zipWith]
  rfl

end Value
end TensorGraph
