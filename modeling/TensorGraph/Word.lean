import TensorGraph.Error

/-!
Sizes and positions are 64-bit words, and arithmetic on them is checked: a result past the last
word stops the program (`Error.overflow`). `Shape.count` and `TensorType.sizeInBytes` are numbers;
`Shape.elements` and `TensorType.bytes` are what the program computes for them. Memory has no such
limit: whatever number of elements is a word, a buffer can hold them.
-/

namespace TensorGraph

namespace Word

/-- One past the last word. -/
def bound : Nat := UInt64.size

def check (n : Nat) : Except Error Nat := if n < bound then .ok n else .error .overflow

def add (a b : Nat) : Except Error Nat := check (a + b)

/-- The product of two words. A factor that is no word overflows, even next to 0. -/
def mul (a b : Nat) : Except Error Nat :=
  if a < bound ∧ b < bound then check (a * b) else .error .overflow

/-- The product from left to right, so that a 0 does not undo an overflow before it. -/
def product (factors : List Nat) : Except Error Nat := factors.foldlM mul 1

variable {a b c n : Nat} {e : Error}

theorem check_eq_ok : check n = .ok a ↔ n < bound ∧ a = n := by
  unfold check
  split
  next word => simp [word, eq_comm]
  next past => simp [past]

theorem add_eq_ok : add a b = .ok c ↔ a + b < bound ∧ c = a + b := check_eq_ok

theorem mul_eq_ok : mul a b = .ok c ↔ (a < bound ∧ b < bound) ∧ a * b < bound ∧ c = a * b := by
  unfold mul
  split
  next words => rw [check_eq_ok, and_iff_right words]
  next words => simp [words]

theorem mul_comm (a b : Nat) : mul a b = mul b a := by
  simp only [mul, Nat.mul_comm a b, and_comm]

theorem eq_overflow_of_check (h : check n = .error e) : e = .overflow := by
  unfold check at h
  split at h <;> cases h
  rfl

theorem eq_overflow_of_mul (h : mul a b = .error e) : e = .overflow := by
  unfold mul at h
  split at h
  · exact eq_overflow_of_check h
  · cases h
    rfl

theorem eq_overflow_of_foldlM {ds : List Nat} (h : ds.foldlM mul a = .error e) :
    e = .overflow := by
  induction ds generalizing a with
  | nil => cases h
  | cons d ds ih =>
    rw [List.foldlM_cons] at h
    cases next : mul a d with
    | error e' =>
      rw [next] at h
      cases h
      exact eq_overflow_of_mul next
    | ok b =>
      rw [next] at h
      exact ih h

theorem foldlM_mul_eq_ok {ds : List Nat} (h : ds.foldlM mul a = .ok n) :
    n = a * ds.foldr (· * ·) 1 ∧ (a < bound → n < bound) := by
  induction ds generalizing a with
  | nil =>
    cases h
    exact ⟨(Nat.mul_one _).symm, id⟩
  | cons d ds ih =>
    rw [List.foldlM_cons] at h
    cases next : mul a d with
    | error e =>
      rw [next] at h
      cases h
    | ok b =>
      rw [next] at h
      obtain ⟨-, below, rfl⟩ := mul_eq_ok.1 next
      obtain ⟨same, word⟩ := ih h
      exact ⟨same.trans (Nat.mul_assoc ..), fun _ => word below⟩

theorem isOk_foldlM_mul_of_le {ds : List Nat} (le : b ≤ a)
    (counted : (ds.foldlM mul a).isOk = true) : (ds.foldlM mul b).isOk = true := by
  induction ds generalizing a b with
  | nil => rfl
  | cons d ds ih =>
    rw [List.foldlM_cons] at counted ⊢
    cases next : mul a d with
    | error e =>
      rw [next] at counted
      cases counted
    | ok c =>
      obtain ⟨words, below, rfl⟩ := mul_eq_ok.1 next
      have smaller := Nat.mul_le_mul_right d le
      have next' : mul b d = .ok (b * d) :=
        mul_eq_ok.2 ⟨⟨Nat.lt_of_le_of_lt le words.1, words.2⟩, Nat.lt_of_le_of_lt smaller below, rfl⟩
      rw [next] at counted
      rw [next']
      exact ih smaller counted

theorem lt_of_isOk_foldlM_mul {ds : List Nat} (counted : (ds.foldlM mul a).isOk = true) :
    ∀ d ∈ ds, d < bound := by
  induction ds generalizing a with
  | nil => exact fun d member => (nomatch member)
  | cons d ds ih =>
    rw [List.foldlM_cons] at counted
    cases next : mul a d with
    | error e =>
      rw [next] at counted
      cases counted
    | ok b =>
      rw [next] at counted
      exact List.forall_mem_cons.2 ⟨(mul_eq_ok.1 next).1.2, ih counted⟩

end Word

namespace Shape

/-- The number of elements, multiplied out from left to right. -/
def elements (s : Shape) : Except Error Nat := Word.product s.dims

/-- Elements in one step along the leading dimension. -/
def rowElements (s : Shape) : Except Error Nat := Word.product s.trailing

/-- The elements can be counted in words. -/
def Fits (s : Shape) : Prop := s.elements.isOk = true

instance (s : Shape) : Decidable s.Fits := inferInstanceAs (Decidable (_ = _))

/-- Refuses a shape that needs another number of elements. -/
def expectCount (s : Shape) (got : Nat) : Except Error Unit := do
  let expected ← s.elements
  if expected = got then .ok () else .error (.elementCountMismatch s expected got)

variable {s : Shape} {got : Nat}

theorem Fits.elements (fits : s.Fits) : s.elements = .ok s.count := by
  cases counted : s.elements with
  | error e => simp [Fits, counted, Except.isOk, Except.toBool] at fits
  | ok n =>
    obtain ⟨same, -⟩ := Word.foldlM_mul_eq_ok counted
    rw [same, Nat.one_mul]
    rfl

theorem elements_of_not_fits (unfit : ¬ s.Fits) : s.elements = .error .overflow := by
  cases counted : s.elements with
  | error e => rw [Word.eq_overflow_of_foldlM counted]
  | ok n => exact (unfit (by rw [Fits, counted]; rfl)).elim

theorem eq_count_of_elements {n : Nat} (counted : s.elements = .ok n) : n = s.count := by
  have fits : s.Fits := by rw [Fits, counted]; rfl
  exact Except.ok.inj (counted.symm.trans fits.elements)

theorem Fits.count_lt (fits : s.Fits) : s.count < Word.bound :=
  (Word.foldlM_mul_eq_ok fits.elements).2 (by decide)

theorem Fits.lt_bound (fits : s.Fits) : ∀ d ∈ s.dims, d < Word.bound :=
  Word.lt_of_isOk_foldlM_mul fits

theorem fits_cons_iff {d : Nat} {ds : List Nat} :
    Fits ⟨d :: ds⟩ ↔ d < Word.bound ∧ (ds.foldlM Word.mul d).isOk = true := by
  have unfolded : elements ⟨d :: ds⟩ = Word.mul 1 d >>= fun n => ds.foldlM Word.mul n := rfl
  rw [Fits, unfolded]
  by_cases word : d < Word.bound
  · have first : Word.mul 1 d = .ok d :=
      Word.mul_eq_ok.2 ⟨⟨by decide, word⟩, by rwa [Nat.one_mul], (Nat.one_mul d).symm⟩
    rw [first, and_iff_right word]
    rfl
  · rw [Word.mul, if_neg fun words => word words.2]
    exact ⟨fun counted => (nomatch counted), fun both => (word both.1).elim⟩

theorem Fits.fewer {d d' : Nat} {ds : List Nat} (fits : Fits ⟨d :: ds⟩) (le : d' ≤ d) :
    Fits ⟨d' :: ds⟩ := by
  obtain ⟨word, counted⟩ := fits_cons_iff.1 fits
  exact fits_cons_iff.2 ⟨Nat.lt_of_le_of_lt le word, Word.isOk_foldlM_mul_of_le le counted⟩

theorem Fits.rowElements {d : Nat} {ds : List Nat} (fits : Fits ⟨d :: ds⟩) (positive : 0 < d) :
    rowElements ⟨d :: ds⟩ = .ok (rowLength ⟨d :: ds⟩) := by
  obtain ⟨-, counted⟩ := fits_cons_iff.1 fits
  exact Fits.elements (s := ⟨ds⟩) (Word.isOk_foldlM_mul_of_le positive counted)

theorem elements_matrix (rows cols : Nat) :
    (matrix rows cols).elements = Word.mul rows cols := by
  have unfolded : (matrix rows cols).elements = Word.mul 1 rows >>= (Word.mul · cols) := by
    change (Word.mul 1 rows >>= fun n => Word.mul n cols >>= pure) = _
    simp
  rw [unfolded]
  by_cases word : rows < Word.bound
  · have first : Word.mul 1 rows = .ok rows :=
      Word.mul_eq_ok.2 ⟨⟨by decide, word⟩, by rwa [Nat.one_mul], (Nat.one_mul rows).symm⟩
    rw [first]
    rfl
  · rw [Word.mul, if_neg fun words => word words.2, Word.mul, if_neg fun words => word words.1]
    rfl

theorem fits_matrix_iff {rows cols : Nat} :
    (matrix rows cols).Fits ↔
      (rows < Word.bound ∧ cols < Word.bound) ∧ rows * cols < Word.bound := by
  constructor
  · intro fits
    have counted := fits.elements
    rw [elements_matrix] at counted
    obtain ⟨words, below, -⟩ := Word.mul_eq_ok.1 counted
    exact ⟨words, below⟩
  · rintro ⟨words, below⟩
    rw [Fits, elements_matrix, Word.mul_eq_ok.2 ⟨words, below, rfl⟩]
    rfl

theorem Fits.transposed {rows cols : Nat} (fits : (matrix rows cols).Fits) :
    (matrix cols rows).Fits := by
  rwa [Fits, elements_matrix, Word.mul_comm, ← elements_matrix]

theorem expectCount_of_fits (fits : s.Fits) (got : Nat) :
    s.expectCount got =
      if s.count = got then .ok () else .error (.elementCountMismatch s s.count got) := by
  rw [expectCount, fits.elements]
  rfl

theorem expectCount_of_not_fits (unfit : ¬ s.Fits) (got : Nat) :
    s.expectCount got = .error .overflow := by
  rw [expectCount, elements_of_not_fits unfit]
  rfl

theorem expectCount_eq_ok : s.expectCount got = .ok () ↔ s.Fits ∧ s.count = got := by
  by_cases fits : s.Fits
  · simp [expectCount_of_fits fits, fits]
  · simp [expectCount_of_not_fits fits, fits]

end Shape

def TensorType.bytes (ty : TensorType) : Except Error Nat := do
  Word.mul (← ty.shape.elements) ty.kind.size

end TensorGraph
