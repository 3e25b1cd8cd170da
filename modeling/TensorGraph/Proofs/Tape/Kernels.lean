import TensorGraph.Proofs.Tensor.Value
import TensorGraph.Tape.Kernel

/-!
Kernels give the elements that the operations on values give, whatever the buffer held. A
product computed row by row is the whole product, and on float kinds a fused sum may be
coerced once.
-/

namespace TensorGraph

namespace Matrix

variable (a b : Array Binary64) (inner cols : Nat)

theorem productRows_append {first middle last : Nat} (lower : first ≤ middle)
    (upper : middle ≤ last) :
    productRows a b first middle inner cols ++ productRows a b middle last inner cols =
      productRows a b first last inner cols := by
  have rows : (middle - first) * cols + (last - middle) * cols = (last - first) * cols := by
    rw [← Nat.add_mul]
    congr 1
    omega
  refine Array.ext (by simpa [productRows] using rows) fun i left right => ?_
  simp only [productRows, Array.size_ofFn] at right
  rw [Array.getElem_append]
  simp only [productRows, Array.size_ofFn, Array.getElem_ofFn]
  split
  · rfl
  next later =>
    have positive : 0 < cols := Nat.pos_of_mul_pos_left (Nat.lt_of_le_of_lt (Nat.zero_le i) right)
    have bound : cols * (middle - first) ≤ i := by
      rw [Nat.mul_comm]
      exact Nat.le_of_not_lt later
    have skipped : middle - first ≤ i / cols :=
      (Nat.le_div_iff_mul_le positive).2 (Nat.le_of_not_lt later)
    rw [Nat.mul_comm (middle - first) cols, Nat.sub_mul_div, Nat.sub_mul_mod bound]
    congr 1
    omega

theorem flatten_rows (rows : Nat) :
    ((List.range rows).map fun row =>
      productRows a b row (row + 1) inner cols).toArray.flatten =
      productRows a b 0 rows inner cols := by
  induction rows with
  | zero => exact (Array.eq_empty_of_size_eq_zero (by simp [productRows])).symm
  | succ rows ih =>
    rw [List.range_succ, List.map_append, ← List.append_toArray, Array.flatten_append, ih,
      ← productRows_append a b inner cols (Nat.zero_le rows) (Nat.le_succ rows)]
    simp

theorem mapM_multiplyRows {rows : Nat} (positive : 0 < rows)
    (fits : (Shape.matrix rows cols).Fits) :
    ((List.range rows).mapM fun row => multiplyRows a b row (row + 1) inner cols) =
      .ok ((List.range rows).map fun row => productRows a b row (row + 1) inner cols) := by
  have single : (Shape.matrix 1 cols).Fits := fits.fewer positive
  have each : (fun row => multiplyRows a b row (row + 1) inner cols) =
      fun row => pure (productRows a b row (row + 1) inner cols) :=
    funext fun row => multiplyRows_of_fits (Nat.add_sub_cancel_left row 1) single
  rw [each, List.mapM_pure]
  rfl

end Matrix

namespace Kernel

variable {a b r : Value} {old : Buffer}

theorem unary_eq (wellFormed : a.WellFormed) {f : Unary} (made : a.unary f = .ok r) :
    unary f r.ty.kind old a.data = r.data := by
  rw [Value.unary_eq wellFormed] at made
  cases made
  exact Buffer.fill_of_size (Array.size_map ..)

theorem size_zipWith (ha : a.WellFormed) (hb : b.WellFormed) (same : a.ty = b.ty)
    (f : Binary64 → Binary64 → Binary64) : (Array.zipWith f a.data b.data).size = a.data.size := by
  rw [Array.size_zipWith, ha.size_eq, hb.size_eq, same, Nat.min_self]

theorem binary_eq (ha : a.WellFormed) (hb : b.WellFormed) (same : a.ty = b.ty)
    (float : a.ty.kind.isFloat) {f : Binary} (made : Value.binary f a b = .ok r) :
    binary f.apply r.ty.kind old a.data b.data = r.data := by
  rw [Value.binary_eq ha hb same] at made
  cases made
  simp only [Binary.applyAt_float float]
  exact Buffer.fill_of_size (size_zipWith ha hb same _)

/-- The sum need not be coerced before it is cut off. -/
theorem addRelu_eq (ha : a.WellFormed) (hb : b.WellFormed) (same : a.ty = b.ty)
    (float : a.ty.kind.isFloat) (made : Value.addRelu a b = .ok r) :
    binary addRelu r.ty.kind old a.data b.data = r.data := by
  rw [Value.addRelu_eq ha hb same] at made
  cases made
  simp only [ElementKind.coerce_relu float]
  exact Buffer.fill_of_size (size_zipWith ha hb same _)

section

variable (dst lhs rhs : Buffer) (kind : ElementKind) (threshold m k n : Nat)

theorem matmul_of_fits (fits : (Shape.matrix m n).Fits) :
    matmul threshold m k n kind dst lhs rhs =
      .ok (dst.fill (m * n) ((Matrix.productRows lhs rhs 0 m k n).map kind.coerce)) := by
  have counted : Word.mul m n = .ok (m * n) := by
    rw [← Shape.elements_matrix, fits.elements, Shape.count_matrix]
  rw [matmul, counted, ok_bind]
  split
  next split =>
    rw [Matrix.mapM_multiplyRows lhs rhs k n (by omega) fits, ok_bind, Matrix.flatten_rows]
    rfl
  next => rw [Matrix.multiplyRows_of_fits m.sub_zero fits]; rfl

/-- Split or not, and whatever the buffer held. -/
theorem matmul_eq_product :
    matmul threshold m k n kind dst lhs rhs =
      (Matrix.multiplyRows lhs rhs 0 m k n).map (·.map kind.coerce) := by
  by_cases fits : (Shape.matrix m n).Fits
  · rw [matmul_of_fits dst lhs rhs kind threshold m k n fits,
      Matrix.multiplyRows_of_fits m.sub_zero fits]
    exact congrArg Except.ok (Buffer.fill_of_size (by simp [Matrix.productRows]))
  · rw [Matrix.multiplyRows_of_not_fits m.sub_zero fits, matmul, ← Shape.elements_matrix,
      Shape.elements_of_not_fits fits]
    rfl

variable {dst lhs rhs kind threshold m k n}

theorem matmul_overflow (unfit : ¬ (Shape.matrix m n).Fits) :
    matmul threshold m k n kind dst lhs rhs = .error .overflow := by
  rw [matmul_eq_product, Matrix.multiplyRows_of_not_fits m.sub_zero unfit]
  rfl

theorem eq_overflow_of_matmul {e : Error}
    (failed : matmul threshold m k n kind dst lhs rhs = .error e) : e = .overflow := by
  by_cases fits : (Shape.matrix m n).Fits
  · cases (matmul_of_fits dst lhs rhs kind threshold m k n fits).symm.trans failed
  · cases (matmul_overflow fits).symm.trans failed
    rfl

theorem eq_overflow_of_transpose {src : Buffer} {rows cols : Nat} {e : Error}
    (failed : transpose rows cols dst src = .error e) : e = .overflow := by
  cases counted : Word.mul rows cols with
  | ok size =>
    rw [transpose, counted] at failed
    cases failed
  | error e' =>
    rw [transpose, counted] at failed
    cases failed
    exact Word.eq_overflow_of_mul counted

end

theorem matmul_eq (threshold : Nat) {m k n : Nat} (kind : a.ty.kind = b.ty.kind)
    (left : a.ty.shape = .matrix m k) (right : b.ty.shape = .matrix k n)
    (made : a.matmul b = .ok r) :
    matmul threshold m k n r.ty.kind old a.data b.data = .ok r.data := by
  rw [matmul_eq_product]
  rw [Value.matmul_rows kind left right] at made
  obtain ⟨product, computed, made⟩ := bind_eq_ok.1 made
  obtain ⟨-, -, rfl⟩ := Value.ofData_eq_ok_iff.1 made
  rw [computed]
  rfl

theorem transpose_eq (wellFormed : a.WellFormed) {rows cols : Nat}
    (shape : a.ty.shape = .matrix rows cols) (made : a.transpose = .ok r) :
    transpose rows cols old a.data = .ok r.data := by
  have fits : (Shape.matrix rows cols).Fits := shape ▸ wellFormed.fits
  rw [Value.transpose_eq wellFormed shape] at made
  cases made
  rw [transpose, ← Shape.elements_matrix, fits.elements]
  exact congrArg Except.ok (Buffer.fill_of_size (by simp [Matrix.transposed]))

theorem reshape_eq (wellFormed : a.WellFormed) {shape : Shape} (made : a.reshape shape = .ok r) :
    a.data = r.data := by
  obtain ⟨_, -, made⟩ := bind_eq_ok.1 made
  obtain ⟨-, -, made⟩ := bind_eq_ok.1 made
  obtain ⟨-, -, rfl⟩ := Value.ofData_eq_ok_iff.1 made
  exact wellFormed.map_coerce.symm

end Kernel
end TensorGraph
