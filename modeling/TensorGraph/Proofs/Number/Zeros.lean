import TensorGraph.Proofs.Number.Reading

/-!
Numbers of equal rank: equal numbers, and the two zeros. Arithmetic on finite numbers gives
results of equal rank from operands of equal rank, a division by zero apart: there the sign of the
zero decides between the two infinities.
-/

namespace TensorGraph

namespace Binary64

variable {x x' y y' : Binary64}

@[simp] theorem rank_zero (negative : Bool) : (zero negative).rank = 0 := by
  cases negative <;> decide

theorem isZero_iff : x.isZero ↔ x.rank = 0 := by
  rw [← Int.natAbs_eq_zero, natAbs_rank, isZero, decide_eq_true_iff]

theorem isZero_eq_false_iff : x.isZero = false ↔ x.rank ≠ 0 := by
  rw [← Bool.not_eq_true, isZero_iff]

theorem eq_zero_of_rank (blank : x.rank = 0) : x = zero x.negative := by
  refine ext_magnitude rfl ?_
  rw [← natAbs_rank, ← natAbs_rank, blank, rank_zero]

theorem value_eq_of_rank (same : x.rank = y.rank) : x.value = y.value :=
  Int.le_antisymm (value_le_value.2 (Int.le_of_eq same))
    (value_le_value.2 (Int.le_of_eq same.symm))

theorem units_eq_of_rank (same : x.rank = y.rank) : x.units = y.units := by
  rw [← natAbs_value, ← natAbs_value, value_eq_of_rank same]

theorem units_of_rank (blank : x.rank = 0) : x.units = 0 := by
  rw [eq_zero_of_rank blank]
  exact units_eq_of_rank (y := zero false) (by simp)

theorem isFinite_of_rank (finite : x.isFinite) (same : x.rank = y.rank) : y.isFinite := by
  rw [isFinite_iff] at *
  rwa [← same]

@[simp] theorem rank_rounded_zero (negative : Bool) (denominator : Nat) :
    (rounded negative 0 denominator).rank = 0 := by
  simp [rank]

theorem rank_neg (x : Binary64) : (-x).rank = -x.rank := by
  change x.neg.rank = -x.rank
  obtain ⟨negative, magnitude⟩ := x
  cases negative <;> simp [rank, neg]

theorem add_of_finite (finite : x.isFinite) (finite' : y.isFinite) :
    x + y = if x.value + y.value = 0 then zero (x.negative && y.negative)
      else rounded (x.value + y.value < 0) (x.value + y.value).natAbs 1 := by
  change x.add y = _
  simp [add, isNaN_of_isFinite, isInfinite_of_isFinite, finite, finite']

theorem mul_of_finite (finite : x.isFinite) (finite' : y.isFinite) :
    x * y = rounded (x.negative != y.negative) (x.units * y.units) scale := by
  change x.mul y = _
  simp [mul, isNaN_of_isFinite, isInfinite_of_isFinite, finite, finite']

theorem div_of_finite (finite : x.isFinite) (finite' : y.isFinite) :
    x / y = if y.isZero then if x.isZero then invalid else infinity (x.negative != y.negative)
      else rounded (x.negative != y.negative) (x.units * scale) y.units := by
  change x.div y = _
  simp [div, isNaN_of_isFinite, isInfinite_of_isFinite, finite, finite']

theorem isFinite_neg (finite : x.isFinite) : (-x).isFinite := finite

theorem sub_of_finite (finite : x.isFinite) (finite' : y.isFinite) : x - y = x + -y := by
  change x.sub y = x.add y.neg
  simp [sub, isNaN_of_isFinite, finite, finite']

theorem rank_max (number : x.isNaN = false) (number' : y.isNaN = false) :
    (x.max y).rank = Max.max x.rank y.rank := by
  have blank := isZero_iff (x := x)
  have blank' := isZero_iff (x := y)
  simp only [max, blt, number, number', Bool.and_eq_true, blank, blank', if_false, Bool.not_false,
    true_and, decide_eq_true_eq, Bool.false_eq_true]
  split
  · simp [*]
  · split <;> omega

theorem rank_min (number : x.isNaN = false) (number' : y.isNaN = false) :
    (x.min y).rank = Min.min x.rank y.rank := by
  have blank := isZero_iff (x := x)
  have blank' := isZero_iff (x := y)
  simp only [min, blt, number, number', Bool.and_eq_true, blank, blank', if_false, Bool.not_false,
    true_and, decide_eq_true_eq, Bool.false_eq_true]
  split
  · simp [*]
  · split <;> omega

section
variable (finite : x.isFinite) (finite' : y.isFinite) (left : x.rank = x'.rank)
  (right : y.rank = y'.rank)

include finite finite' left right

theorem rank_add_congr : (x + y).rank = (x' + y').rank := by
  rw [add_of_finite finite finite',
    add_of_finite (isFinite_of_rank finite left) (isFinite_of_rank finite' right),
    value_eq_of_rank left, value_eq_of_rank right]
  split
  · simp
  · rfl

theorem rank_sub_congr : (x - y).rank = (x' - y').rank := by
  rw [sub_of_finite finite finite',
    sub_of_finite (isFinite_of_rank finite left) (isFinite_of_rank finite' right)]
  refine rank_add_congr finite (isFinite_neg finite') left ?_
  rw [rank_neg, rank_neg, right]

theorem rank_mul_congr : (x * y).rank = (x' * y').rank := by
  rw [mul_of_finite finite finite',
    mul_of_finite (isFinite_of_rank finite left) (isFinite_of_rank finite' right)]
  by_cases blank : x.rank = 0
  · have still : x'.rank = 0 := left ▸ blank
    simp [units_of_rank blank, units_of_rank still]
  · by_cases blank' : y.rank = 0
    · have still : y'.rank = 0 := right ▸ blank'
      simp [units_of_rank blank', units_of_rank still]
    · rw [eq_of_rank left blank, eq_of_rank right blank']

theorem rank_max_congr : (x.max y).rank = (x'.max y').rank := by
  rw [rank_max (isNaN_of_isFinite finite) (isNaN_of_isFinite finite'),
    rank_max (isNaN_of_isFinite (isFinite_of_rank finite left))
      (isNaN_of_isFinite (isFinite_of_rank finite' right)), left, right]

theorem rank_min_congr : (x.min y).rank = (x'.min y').rank := by
  rw [rank_min (isNaN_of_isFinite finite) (isNaN_of_isFinite finite'),
    rank_min (isNaN_of_isFinite (isFinite_of_rank finite left))
      (isNaN_of_isFinite (isFinite_of_rank finite' right)), left, right]

/-- Only a zero divided by a zero does not ask for the sign of the divisor. -/
theorem rank_div_congr (quiet : y.rank = 0 → x.rank = 0 ∨ y.negative = y'.negative) :
    (x / y).rank = (x' / y').rank := by
  have dividend := isZero_iff (x := x)
  have dividend' := isZero_iff (x := x')
  have divisor := isZero_iff (x := y)
  have divisor' := isZero_iff (x := y')
  by_cases blank : x.rank = 0
  · have still : x'.rank = 0 := left ▸ blank
    rw [div_of_finite finite finite',
      div_of_finite (isFinite_of_rank finite left) (isFinite_of_rank finite' right),
      units_of_rank blank, units_of_rank still, if_pos (dividend.2 blank),
      if_pos (dividend'.2 still)]
    simp only [divisor, divisor', ← right, Nat.zero_mul]
    split
    · rfl
    · rw [rank_rounded_zero, rank_rounded_zero]
  · obtain rfl := eq_of_rank left blank
    have same : y = y' := by
      by_cases level : y.rank = 0
      · have level' : y'.rank = 0 := right ▸ level
        rw [eq_zero_of_rank level, eq_zero_of_rank level', (quiet level).resolve_left blank]
      · exact eq_of_rank right level
    rw [same]

end

theorem rank_truncate_congr (same : x.rank = y.rank) : x.truncate.rank = y.truncate.rank := by
  by_cases blank : x.rank = 0
  · have still : y.rank = 0 := same ▸ blank
    rw [eq_zero_of_rank blank, eq_zero_of_rank still]
    cases x.negative <;> cases y.negative <;> decide +kernel
  · rw [eq_of_rank same blank]

end Binary64
end TensorGraph
