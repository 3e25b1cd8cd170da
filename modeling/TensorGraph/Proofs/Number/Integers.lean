import TensorGraph.Proofs.Number.Monotone

/-!
Arithmetic on numbers that are integers. Sums, differences and products have the rank of the number
nearest to the exact result. A quotient is rounded before its fraction is cut off; it is so far away
from the next integer that rounding does not reach it. Read on an integer kind, each result is the
exact one held between the kind's bounds.
-/

namespace TensorGraph

namespace Binary64

variable {x y : Binary64} {m n : Int}

theorem rank_rounded (negative : Bool) (a d : Nat) :
    (rounded negative a d).rank =
      if negative then -(Format.binary64.round a d : Int) else Format.binary64.round a d := by
  rw [rank, rounded_negative, rounded_magnitude]

/-- The sign of a result does not matter if it is zero. -/
theorem rank_rounded_eq {negative : Bool} {a d : Nat} (positive : 0 < d)
    (exact : a = m.natAbs * scale * d) (sign : m ≠ 0 → negative = decide (m < 0)) :
    (rounded negative a d).rank = (ofInt m).rank := by
  have code : Format.binary64.round a d = Format.binary64.round (m.natAbs * scale) 1 :=
    Format.binary64.round_congr positive Nat.one_pos (by rw [exact, Nat.mul_one])
  by_cases zero : m = 0
  · subst zero
    rw [rank_rounded, code, ofInt, rank_rounded]
    simp
  · rw [rank_rounded, code, sign zero, ofInt, rank_rounded]

theorem rank_ofInt_mono (below : m ≤ n) : (ofInt m).rank ≤ (ofInt n).rank := by
  have codes {a b : Nat} (le : a ≤ b) : Format.binary64.round (a * scale) 1 ≤
      Format.binary64.round (b * scale) 1 :=
    Format.binary64.round_mono Nat.one_pos Nat.one_pos
      (Nat.mul_le_mul_right _ (Nat.mul_le_mul_right _ le))
  simp only [ofInt, rank_rounded, decide_eq_true_eq]
  split
  · split
    · have := codes (a := n.natAbs) (b := m.natAbs) (by omega)
      omega
    · omega
  · rw [if_neg (by omega)]
    have := codes (a := m.natAbs) (b := n.natAbs) (by omega)
    omega

theorem toInt?_ofInt (short : n.natAbs < 2 * Format.binary64.hidden) :
    (ofInt n).toInt? = some n := by
  obtain ⟨s, fits, power⟩ := scale_pow
  have held : Format.binary64.Represents (n.natAbs * scale) := by
    rw [power]
    exact Format.represents_mul_pow short fits
  obtain ⟨finite, exact⟩ : (ofInt n).isFinite ∧ (ofInt n).units = n.natAbs * scale :=
    rounded_exact _ held
  have part : (ofInt n).integerPart = n := by
    rw [integerPart, exact, Nat.mul_div_cancel _ scale_pos, ofInt, rounded_negative]
    simp only [decide_eq_true_eq]
    split <;> omega
  rw [toInt?_of_integral finite (by rw [exact]; exact Nat.dvd_mul_left ..), part]

theorem isNaN_ofInt (n : Int) : (ofInt n).isNaN = false := by
  simp [ofInt, isNaN, Format.round_le_infinity]

section
variable (found : x.toInt? = some m) (found' : y.toInt? = some n)

include found

theorem units_of_toInt? : x.units = m.natAbs * scale := by
  rw [← natAbs_value, (of_toInt? found).2.1, Int.natAbs_mul, Int.natAbs_natCast]

theorem negative_of_toInt? (nonzero : m ≠ 0) : x.negative = decide (m < 0) := by
  obtain ⟨-, -, part⟩ := of_toInt? found
  rw [integerPart] at part
  generalize x.units / scale = whole at part
  split at part
  next negative =>
    rw [negative, eq_comm, decide_eq_true_iff]
    omega
  next plain =>
    rw [Bool.eq_false_iff.2 plain, eq_comm, decide_eq_false_iff_not]
    omega

theorem toInt?_neg : (-x).toInt? = some (-m) := by
  have finite : (-x).isFinite := (of_toInt? found).1
  have part : (-x).integerPart = -x.integerPart := by
    change x.neg.integerPart = -x.integerPart
    obtain ⟨negative, magnitude⟩ := x
    cases negative <;> simp [integerPart, neg, units]
  have integral : scale ∣ (-x).units := by
    rw [show (-x).units = x.units from rfl, units_of_toInt? found]
    exact Nat.dvd_mul_left ..
  rw [toInt?_of_integral finite integral, part, (of_toInt? found).2.2]

include found'

theorem negative_of_sign {k : Int} (sign : k.sign = m.sign * n.sign) (nonzero : k ≠ 0) :
    (x.negative != y.negative) = decide (k < 0) := by
  have signs : m.sign * n.sign ≠ 0 := sign ▸ mt Int.sign_eq_zero_iff_zero.1 nonzero
  obtain ⟨left, right⟩ := Int.mul_ne_zero_iff.1 signs
  rw [negative_of_toInt? found (mt Int.sign_eq_zero_iff_zero.2 left),
    negative_of_toInt? found' (mt Int.sign_eq_zero_iff_zero.2 right)]
  simp only [← Int.sign_eq_neg_one_iff_neg, sign]
  rcases Int.sign_trichotomy m with first | first | first <;>
    rcases Int.sign_trichotomy n with second | second | second <;>
    simp [first, second] at left right ⊢

theorem rank_add : (x + y).rank = (ofInt (m + n)).rank := by
  obtain ⟨finite, value, -⟩ := of_toInt? found
  obtain ⟨finite', value', -⟩ := of_toInt? found'
  have positive := Int.natCast_pos.2 scale_pos
  rw [add_of_finite finite finite', value, value', ← Int.add_mul]
  by_cases zero : m + n = 0
  · rw [zero, Int.zero_mul, if_pos rfl, rank_zero, ofInt, Int.natAbs_zero, Nat.zero_mul,
      rank_rounded_zero]
  · rw [if_neg (Int.mul_ne_zero zero (Int.ne_of_gt positive))]
    refine rank_rounded_eq Nat.one_pos ?_ fun _ => ?_
    · rw [Int.natAbs_mul, Int.natAbs_natCast, Nat.mul_one]
    · rw [decide_eq_decide]
      exact ⟨fun below => Int.neg_of_mul_neg_left below positive,
        fun below => Int.mul_neg_of_neg_of_pos below positive⟩

theorem rank_sub : (x - y).rank = (ofInt (m - n)).rank := by
  rw [sub_of_finite (of_toInt? found).1 (of_toInt? found').1, Int.sub_eq_add_neg]
  exact rank_add found (toInt?_neg found')

theorem rank_mul : (x * y).rank = (ofInt (m * n)).rank := by
  rw [mul_of_finite (of_toInt? found).1 (of_toInt? found').1]
  refine rank_rounded_eq scale_pos ?_ fun nonzero => ?_
  · rw [units_of_toInt? found, units_of_toInt? found', Int.natAbs_mul]
    ac_rfl
  · exact negative_of_sign found found' (Int.sign_mul ..) nonzero

end

/-- A quotient stays below the next integer by a step of at most `1 / b`, here `1 / 2 ^ k`. -/
theorem exists_last_step {a b bound : Nat} (positive : 0 < b) (short : a + b ≤ bound) :
    ∃ k w, (a / b + 1) * 2 ^ k = w + 1 ∧ w < 2 * bound ∧ 2 ^ k ≤ 2 * bound ∧
      a * 2 ^ k ≤ w * b := by
  have low := Nat.div_mul_le_self a b
  have high := Nat.lt_div_mul_add (a := a) positive
  have wide : b < 2 ^ (b.log2 + 1) := Nat.lt_log2_self
  have narrow : 2 ^ (b.log2 + 1) ≤ 2 * b := by
    have := Nat.log2_self_le (Nat.ne_of_gt positive)
    rw [Nat.pow_succ]
    omega
  generalize b.log2 + 1 = k at wide narrow
  obtain ⟨w, last⟩ : ∃ w, (a / b + 1) * 2 ^ k = w + 1 :=
    Nat.exists_eq_add_one.2 (Nat.mul_pos (Nat.succ_pos _) (Nat.two_pow_pos k))
  refine ⟨k, w, last, ?_, by omega, ?_⟩
  · have steps := Nat.mul_le_mul_left (a / b + 1) narrow
    rw [last, Nat.mul_left_comm, Nat.succ_mul (a / b)] at steps
    omega
  · have scaled : (a + 1) * 2 ^ k ≤ (w + 1) * b := by
      calc (a + 1) * 2 ^ k ≤ (a / b * b + b) * 2 ^ k := Nat.mul_le_mul_right _ high
        _ = (a / b + 1) * 2 ^ k * b := by rw [← Nat.succ_mul, Nat.mul_right_comm]
        _ = (w + 1) * b := by rw [last]
    rw [Nat.succ_mul, Nat.succ_mul] at scaled
    omega

/-- The last number of such steps is above the exact quotient too, so rounding does not reach the
next integer. -/
theorem units_quotient {a b : Nat} (negative : Bool) (positive : 0 < b)
    (short : a + b ≤ Format.binary64.hidden) :
    (rounded negative (a * scale * scale) (b * scale)).isFinite ∧
      (rounded negative (a * scale * scale) (b * scale)).units / scale = a / b := by
  obtain ⟨s, fits, power⟩ := scale_pow
  obtain ⟨k, w, last, small, fine, below⟩ := exists_last_step positive short
  have deep : 2 * Format.binary64.hidden ≤ scale := by decide +kernel
  have cut : 2 ^ (s - k) * 2 ^ k = scale := by
    have within : k ≤ s := by
      rw [← Nat.pow_le_pow_iff_right (a := 2) (by decide), ← power]
      exact Nat.le_trans fine deep
    rw [power, Nat.pow_sub_mul_pow 2 within]
  have whole : a / b < 2 * Format.binary64.hidden := by
    have := Nat.div_le_self a b
    have := Format.binary64.hidden_pos
    omega
  have held : Format.binary64.Represents (a / b * scale) :=
    power ▸ Format.represents_mul_pow whole fits
  have held' : Format.binary64.Represents (w * 2 ^ (s - k)) :=
    Format.represents_mul_pow small (by omega)
  have floor : a / b * scale * (b * scale) ≤ a * scale * scale := by
    calc a / b * scale * (b * scale) = a / b * b * (scale * scale) := by ac_rfl
      _ ≤ a * (scale * scale) := Nat.mul_le_mul_right _ (Nat.div_mul_le_self a b)
      _ = a * scale * scale := (Nat.mul_assoc ..).symm
  have ceiling : a * scale * scale ≤ w * 2 ^ (s - k) * (b * scale) := by
    calc a * scale * scale = a * (2 ^ (s - k) * 2 ^ k) * scale := by rw [cut]
      _ = a * 2 ^ k * (2 ^ (s - k) * scale) := by ac_rfl
      _ ≤ w * b * (2 ^ (s - k) * scale) := Nat.mul_le_mul_right _ below
      _ = w * 2 ^ (s - k) * (b * scale) := by ac_rfl
  obtain ⟨finite, above, under⟩ := units_rounded_between negative
    (Nat.mul_pos positive scale_pos) held held' floor ceiling
  refine ⟨finite, Nat.div_eq_of_lt_le above ?_⟩
  calc (rounded negative (a * scale * scale) (b * scale)).units ≤ w * 2 ^ (s - k) := under
    _ < (w + 1) * 2 ^ (s - k) := Nat.mul_lt_mul_of_pos_right (Nat.lt_succ_self w) (Nat.two_pow_pos _)
    _ = (a / b + 1) * (2 ^ (s - k) * 2 ^ k) := by rw [← last]; ac_rfl
    _ = (a / b + 1) * scale := by rw [cut]

theorem rank_truncate_div (found : x.toInt? = some m) (found' : y.toInt? = some n)
    (nonzero : n ≠ 0) (short : m.natAbs + n.natAbs ≤ Format.binary64.hidden) :
    (x / y).truncate.rank = (ofInt (m.tdiv n)).rank := by
  have divisor : 0 < n.natAbs := Int.natAbs_pos.2 nonzero
  have solid : y.isZero = false := by
    rw [isZero_eq_false_iff]
    intro blank
    have units := units_of_toInt? found'
    rw [units_of_rank blank] at units
    exact Nat.ne_of_gt (Nat.mul_pos divisor scale_pos) units.symm
  obtain ⟨finite, part⟩ := units_quotient (x.negative != y.negative) divisor short
  rw [div_of_finite (of_toInt? found).1 (of_toInt? found').1, if_neg (by simp [solid]),
    units_of_toInt? found, units_of_toInt? found', truncate, if_pos finite, part, rounded_negative]
  refine rank_rounded_eq Nat.one_pos ?_ fun other => ?_
  · rw [Int.natAbs_tdiv, Nat.mul_one]
    rfl
  · refine negative_of_sign found found' ?_ other
    have sign := Int.sign_tdiv m n
    split at sign
    · exact (other (Int.sign_eq_zero_iff_zero.1 sign)).elim
    · exact sign

end Binary64
end TensorGraph
