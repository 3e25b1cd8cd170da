import Mathlib.Order.Monotone.Basic
import TensorGraph.Proofs.Number.Coercion

/-!
What the numbers of a kind are. Codes are ordered as their magnitudes, so comparing two numbers
compares their values; and what an integer kind leaves alone is exactly an integer that is not
below the one bound of the kind and not above the other.
-/

namespace TensorGraph

namespace Format

/-- A significand that is carried over has the code one exponent up. -/
theorem units_carry (F : Format) {m : Nat} (e : Nat) (low : F.hidden ≤ m)
    (high : m ≤ 2 * F.hidden) : F.units (e * F.hidden + m) = m * 2 ^ e := by
  rcases Nat.lt_or_eq_of_le high with short | carried
  · exact F.units_normal e low short
  · have hidden := F.hidden_pos
    have code : e * F.hidden + m = (e + 1) * F.hidden + F.hidden := by
      rw [Nat.add_mul]
      omega
    rw [code, F.units_normal (e + 1) (Nat.le_refl _) (by omega), carried, Nat.pow_succ]
    ac_rfl

theorem units_strictMono (F : Format) : StrictMono F.units := by
  refine strictMono_nat_of_lt_succ fun code => ?_
  have hidden := F.hidden_pos
  rcases Nat.lt_trichotomy (code + 1) F.hidden with both | first | neither
  · rw [units_of_lt both, units_of_lt (Nat.lt_of_succ_lt both)]
    exact Nat.lt_succ_self code
  · have next := F.units_carry 0 (Nat.le_refl _) (by omega)
    rw [Nat.zero_mul, Nat.zero_add, Nat.pow_zero, Nat.mul_one] at next
    rw [units_of_lt (by omega), first, next]
    omega
  · -- both codes are in reach of the exponent of the smaller one
    have fraction := Nat.mod_lt code hidden
    have split := Nat.div_add_mod' code F.hidden
    have exponent : code / F.hidden ≠ 0 := by
      rw [Ne, Nat.div_eq_zero_iff]
      omega
    obtain ⟨e, field⟩ := Nat.exists_eq_succ_of_ne_zero exponent
    rw [field, Nat.succ_mul] at split
    have here := F.units_carry e (m := F.hidden + code % F.hidden) (by omega) (by omega)
    have next := F.units_carry e (m := F.hidden + code % F.hidden + 1) (by omega) (by omega)
    rw [show e * F.hidden + (F.hidden + code % F.hidden) = code by omega] at here
    rw [show e * F.hidden + (F.hidden + code % F.hidden + 1) = code + 1 by omega] at next
    rw [here, next]
    exact Nat.mul_lt_mul_of_pos_right (Nat.lt_succ_self _) (Nat.two_pow_pos e)

end Format

namespace Binary64

variable {x y : Binary64} {n : Int}

theorem value_lt_value : x.value < y.value ↔ x.rank < y.rank := by
  have order := Format.binary64.units_strictMono
  have forward : x.units < y.units ↔ x.magnitude.toNat < y.magnitude.toNat := order.lt_iff_lt
  have backward : y.units < x.units ↔ y.magnitude.toNat < x.magnitude.toNat := order.lt_iff_lt
  have left : 0 < x.units ↔ 0 < x.magnitude.toNat := by
    simpa [units] using order.lt_iff_lt (a := 0) (b := x.magnitude.toNat)
  have right : 0 < y.units ↔ 0 < y.magnitude.toNat := by
    simpa [units] using order.lt_iff_lt (a := 0) (b := y.magnitude.toNat)
  simp only [value, rank]
  split <;> split <;> omega

theorem value_le_value : x.value ≤ y.value ↔ x.rank ≤ y.rank := by
  have := value_lt_value (x := y) (y := x)
  omega

theorem natAbs_value (x : Binary64) : x.value.natAbs = x.units := by
  rw [value]
  split <;> omega

theorem of_toInt? (found : x.toInt? = some n) :
    x.isFinite ∧ x.value = n * scale ∧ x.integerPart = n := by
  rw [toInt?] at found
  split at found
  next integral =>
    obtain ⟨finite, exact⟩ := by simpa using integral
    have whole : x.units / scale * scale = x.units :=
      Nat.div_mul_cancel (Nat.dvd_of_mod_eq_zero exact)
    refine ⟨finite, ?_, Option.some.inj found⟩
    rw [← Option.some.inj found, integerPart, value]
    split
    · rw [Int.neg_mul, ← Int.natCast_mul, whole]
    · rw [← Int.natCast_mul, whole]
  next => cases found

theorem toInt?_of_integral (finite : x.isFinite) (integral : scale ∣ x.units) :
    x.toInt? = some x.integerPart := by
  rw [toInt?, if_pos (by simpa [finite] using Nat.mod_eq_zero_of_dvd integral)]

theorem toIntWithin_of_toInt? {low high : Int} (found : x.toInt? = some n) :
    x.toIntWithin low high = Max.max low (Min.min high n) := by
  obtain ⟨finite, -, part⟩ := of_toInt? found
  simp [toIntWithin, isNaN_of_isFinite finite, isInfinite_of_isFinite finite, part]

/-- The number of the integer that a number is, is that number; only a zero may lose its sign. -/
theorem rank_ofInt (found : x.toInt? = some n) : (ofInt n).rank = x.rank := by
  obtain ⟨finite, exact, -⟩ := of_toInt? found
  have magnitude : n.natAbs * scale = x.units := by
    rw [← natAbs_value, exact, Int.natAbs_mul, Int.natAbs_natCast]
  have code : (ofInt n).magnitude.toNat = x.magnitude.toNat := by
    rw [ofInt, rounded_magnitude, magnitude, ← rounded_magnitude x.negative, rounded_units finite]
  have same : (ofInt n).value = x.value := by
    have sign : (ofInt n).negative = decide (n < 0) := rounded_negative ..
    rw [exact, value, sign, units, code, ← units, ← magnitude, Int.natCast_mul, ← Int.neg_mul]
    by_cases negative : n < 0
    · rw [if_pos (decide_eq_true negative), show -(n.natAbs : Int) = n by omega]
    · rw [if_neg (by simpa using negative), show (n.natAbs : Int) = n by omega]
  have below := value_le_value.1 (Int.le_of_eq same)
  have above := value_le_value.1 (Int.le_of_eq same.symm)
  omega

theorem rank_le_of_not_blt (left : x.isNaN = false) (right : y.isNaN = false)
    (not : x.blt y = false) : y.rank ≤ x.rank := by
  simpa [blt, left, right] using not

theorem natAbs_rank (x : Binary64) : x.rank.natAbs = x.magnitude.toNat := by
  rw [rank]
  split <;> omega

theorem isFinite_iff : x.isFinite ↔ x.rank.natAbs < Format.binary64.infinity := by
  simp [isFinite, natAbs_rank]

theorem finite_of_between {low high : Binary64} (lowFinite : low.isFinite)
    (highFinite : high.isFinite) (above : low.rank ≤ x.rank) (below : x.rank ≤ high.rank) :
    x.isFinite := by
  rw [isFinite_iff] at *
  omega

theorem value_pos : 0 < x.value ↔ 0 < x.rank := by
  have value : (zero false).value = 0 := by decide
  have rank : (zero false).rank = 0 := by decide
  have order := value_lt_value (x := zero false) (y := x)
  rwa [value, rank] at order

theorem eq_of_rank (same : x.rank = y.rank) (nonzero : x.rank ≠ 0) : x = y := by
  have code : x.magnitude.toNat = y.magnitude.toNat := by
    rw [← natAbs_rank, ← natAbs_rank, same]
  refine ext_magnitude ?_ code
  rw [rank, rank, code] at same
  rw [rank] at nonzero
  cases left : x.negative <;> cases right : y.negative <;> simp [left, right] at same nonzero ⊢ <;>
    omega

end Binary64

namespace ElementKind

variable {kind : ElementKind} {x : Binary64}

theorem of_saturate_eq_self {low high : Int} (bounds : Bounds (.ofInt low) (.ofInt high))
    (fixed : saturate low high x = x) : x.isNaN = false ∧ x.round = x ∧
      x.blt (.ofInt low) = false ∧ (Binary64.ofInt high).blt x = false := by
  rw [saturate] at fixed
  split at fixed
  next nan =>
    rw [← fixed] at nan
    cases nan
  next number =>
    refine ⟨Bool.eq_false_iff.2 number, ?_⟩
    rw [Binary64.clamp] at fixed
    split at fixed
    next =>
      rw [← fixed]
      exact ⟨bounds.low_whole, Binary64.blt_self _, bounds.ordered⟩
    next above =>
      split at fixed
      next =>
        rw [← fixed]
        exact ⟨bounds.high_whole, bounds.ordered, Binary64.blt_self _⟩
      next below =>
        rw [fixed] at above below
        exact ⟨fixed, Bool.eq_false_iff.2 above, Bool.eq_false_iff.2 below⟩

/-- The bounds of an integer kind as numbers. The lower one is exact; the upper one may be rounded
up to the next integer. -/
theorem bounds_value (whole : kind.isFloat = false) :
    (Binary64.ofInt kind.least).isFinite ∧ (Binary64.ofInt kind.greatest).isFinite ∧
      (Binary64.ofInt kind.least).value = kind.least * Binary64.scale ∧
      (Binary64.ofInt kind.greatest).value ≤ (kind.greatest + 1) * Binary64.scale := by
  cases kind with
  | float | double => cases whole
  | int8 | int32 | index => decide +kernel

theorem bounds_of_whole (whole : kind.isFloat = false) :
    Bounds (.ofInt kind.least) (.ofInt kind.greatest) := by
  cases kind with
  | float | double => cases whole
  | int8 => exact bounds_int8
  | int32 => exact bounds_int32
  | index => exact bounds_index

theorem zero_within (kind : ElementKind) : kind.least ≤ 0 ∧ 0 ≤ kind.greatest := by
  cases kind <;> decide

theorem coerce_whole (whole : kind.isFloat = false) (x : Binary64) :
    kind.coerce x = saturate kind.least kind.greatest x := by
  cases kind with
  | float | double => cases whole
  | int8 | int32 | index => rfl

/-- What an integer kind leaves alone is an integer within its bounds, the greatest one as a number:
if no number is equal to it, the nearest one is meant. -/
theorem toInt?_of_coerced (whole : kind.isFloat = false) (stored : kind.coerce x = x) :
    ∃ n, x.toInt? = some n ∧ kind.least ≤ n ∧
      (n ≤ kind.greatest ∨ x = .ofInt kind.greatest) := by
  obtain ⟨lowFinite, highFinite, low, high⟩ := bounds_value whole
  rw [coerce_whole whole] at stored
  have bounds := bounds_of_whole whole
  obtain ⟨number, integral, above, below⟩ := of_saturate_eq_self bounds stored
  have atLeast := Binary64.rank_le_of_not_blt number bounds.low_number above
  have atMost := Binary64.rank_le_of_not_blt bounds.high_number number below
  have finite := Binary64.finite_of_between lowFinite highFinite atLeast atMost
  have exact : x.toInt? = some x.integerPart := by
    have divides := (Binary64.round_integral finite).2
    rw [integral] at divides
    exact Binary64.toInt?_of_integral finite divides
  have value := (Binary64.of_toInt? exact).2.1
  have positive : (0 : Int) < Binary64.scale := Int.natCast_pos.2 Binary64.scale_pos
  refine ⟨x.integerPart, exact, ?_, ?_⟩
  · have := Binary64.value_le_value.2 atLeast
    rw [low, value] at this
    exact Int.le_of_mul_le_mul_right this positive
  · by_cases small : x.integerPart ≤ kind.greatest
    · exact .inl small
    · right
      have beyond : (kind.greatest + 1) * Binary64.scale ≤ x.value := by
        rw [value]
        exact Int.mul_le_mul_of_nonneg_right (by omega) (Int.le_of_lt positive)
      have level := Binary64.value_le_value.1 (Int.le_trans high beyond)
      have above : 0 < x.value := by
        have := kind.zero_within
        exact Int.lt_of_lt_of_le (Int.mul_pos (by omega) positive) beyond
      exact Binary64.eq_of_rank (Int.le_antisymm atMost level)
        (Int.ne_of_gt (Binary64.value_pos.1 above))

theorem encode_of_toInt? (whole : kind.isFloat = false) {n : Int} (found : x.toInt? = some n) :
    kind.encode x = littleEndian kind.size (max kind.least (min kind.greatest n)) := by
  rw [← Binary64.toIntWithin_of_toInt? found]
  cases kind with
  | float | double => cases whole
  | int8 | int32 | index => rfl

theorem encode_of_coerced (whole : kind.isFloat = false) (stored : kind.coerce x = x) :
    ∃ n, kind.encode x = littleEndian kind.size n ∧ kind.least ≤ n ∧ n ≤ kind.greatest ∧
      (Binary64.ofInt n).rank = x.rank := by
  obtain ⟨n, found, atLeast, atMost⟩ := toInt?_of_coerced whole stored
  have written := encode_of_toInt? whole found
  by_cases within : n ≤ kind.greatest
  · rw [min_eq_right within, max_eq_right atLeast] at written
    exact ⟨n, written, atLeast, within, Binary64.rank_ofInt found⟩
  · have high : x = .ofInt kind.greatest := atMost.resolve_left within
    have order := kind.zero_within
    rw [min_eq_left (by omega), max_eq_right (by omega)] at written
    exact ⟨kind.greatest, written, by omega, Int.le_refl _, by rw [high]⟩

end ElementKind
end TensorGraph
