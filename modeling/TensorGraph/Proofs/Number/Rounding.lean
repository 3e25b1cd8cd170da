import Mathlib.Algebra.Group.Nat.Defs
import TensorGraph.Number.Binary64

/-!
Magnitudes that a format holds exactly. Rounding leaves them alone, and rounding to an
integer gives one of them.
-/

namespace TensorGraph
namespace Format

/-- The magnitude has a finite code. -/
def Represents (F : Format) (n : Nat) : Prop := ∃ code < F.infinity, F.units code = n

/-- A significand with its hidden bit set stands one exponent field above its shift. -/
theorem units_normal (F : Format) {m : Nat} (e : Nat) (low : F.hidden ≤ m)
    (high : m < 2 * F.hidden) : F.units (e * F.hidden + m) = m * 2 ^ e := by
  obtain ⟨r, rfl⟩ := Nat.exists_eq_add_of_le low
  have bound : r < F.hidden := by omega
  have split : e * F.hidden + (F.hidden + r) = r + F.hidden * (e + 1) := by
    rw [Nat.mul_add, Nat.mul_comm]
    omega
  have exponent : (e * F.hidden + (F.hidden + r)) / F.hidden = e + 1 := by
    rw [split, Nat.add_mul_div_left _ _ F.hidden_pos, Nat.div_eq_of_lt bound, Nat.zero_add]
  have fraction : (e * F.hidden + (F.hidden + r)) % F.hidden = r := by
    rw [split, Nat.add_mul_mod_self_left, Nat.mod_eq_of_lt bound]
  simp [units, exponent, fraction, Nat.shiftLeft_eq]

theorem represents_mul_pow {F : Format} {m e : Nat} (small : m < 2 * F.hidden)
    (fits : e + 3 ≤ 2 ^ F.exponentBits) : F.Represents (m * 2 ^ e) := by
  induction e generalizing m with
  | zero =>
    have below : m < F.infinity := by
      refine Nat.lt_of_lt_of_le small (Nat.mul_le_mul_right _ ?_)
      rw [Nat.one_shiftLeft]
      omega
    by_cases subnormal : m < F.hidden
    · exact ⟨m, below, by simp [units_of_lt subnormal]⟩
    · exact ⟨m, below, by simpa using F.units_normal 0 (Nat.le_of_not_lt subnormal) small⟩
  | succ e ih =>
    by_cases subnormal : m < F.hidden
    · have doubled := @ih (2 * m) (by omega) (by omega)
      have same : m * 2 ^ (e + 1) = 2 * m * 2 ^ e := by
        rw [Nat.pow_succ]
        ac_rfl
      exact same ▸ doubled
    · have low := Nat.le_of_not_lt subnormal
      refine ⟨(e + 1) * F.hidden + m, ?_, F.units_normal (e + 1) low small⟩
      have room : (e + 3) * F.hidden ≤ F.infinity := by
        refine Nat.mul_le_mul_right _ ?_
        rw [Nat.one_shiftLeft]
        omega
      have : (e + 3) * F.hidden = (e + 1) * F.hidden + 2 * F.hidden := by
        rw [← Nat.add_mul]
      omega

/-- Every finite magnitude is a short significand shifted by less than the exponent range. -/
theorem Represents.significand {F : Format} {n : Nat} (h : F.Represents n)
    (wide : 3 ≤ 2 ^ F.exponentBits) :
    ∃ m e, m < 2 * F.hidden ∧ e + 3 ≤ 2 ^ F.exponentBits ∧ n = m * 2 ^ e := by
  obtain ⟨code, finite, rfl⟩ := h
  have positive := F.hidden_pos
  by_cases subnormal : code / F.hidden = 0
  · have small : code < F.hidden := by
      rw [Nat.div_eq_zero_iff] at subnormal
      omega
    exact ⟨code, 0, by omega, by omega, by simp [units_of_lt small]⟩
  · have exponent : code / F.hidden < 2 ^ F.exponentBits - 1 := by
      rw [infinity, Nat.one_shiftLeft] at finite
      exact (Nat.div_lt_iff_lt_mul positive).2 finite
    have fraction := Nat.mod_lt code positive
    refine ⟨F.hidden + code % F.hidden, code / F.hidden - 1, by omega, by omega, ?_⟩
    simp [units, subnormal, Nat.shiftLeft_eq]

theorem Represents.round {F : Format} {n : Nat} (h : F.Represents n) :
    F.round n 1 < F.infinity ∧ F.units (F.round n 1) = n := by
  obtain ⟨code, finite, rfl⟩ := h
  rw [round_units (Nat.le_of_lt finite)]
  exact ⟨finite, rfl⟩

theorem nearest_mul_mul (a b : Nat) {k : Nat} (positive : 0 < k) :
    nearest (a * k) (b * k) = nearest a b := by
  have twice : 2 * (a % b * k) = 2 * (a % b) * k := by ac_rfl
  simp only [nearest, Nat.mul_div_mul_right _ _ positive, Nat.mul_mod_mul_right, twice,
    Nat.mul_lt_mul_right positive]

theorem round_mul (F : Format) (n : Nat) {k : Nat} (positive : 0 < k) :
    F.round (n * k) k = F.round n 1 := by
  have scaled : ∀ shift : Nat, k <<< shift = 1 <<< shift * k := by
    intro shift
    rw [Nat.shiftLeft_eq, Nat.shiftLeft_eq, Nat.one_mul, Nat.mul_comm]
  simp only [round, Nat.mul_div_cancel _ positive, Nat.div_one, scaled,
    nearest_mul_mul _ _ positive]

/-- From `hidden` times a power of two on, magnitudes are multiples of that power. -/
theorem Represents.dvd_or_lt {F : Format} {n : Nat} (h : F.Represents n)
    (wide : 3 ≤ 2 ^ F.exponentBits) (s : Nat) : 2 ^ s ∣ n ∨ n < F.hidden * 2 ^ s := by
  obtain ⟨m, e, small, -, rfl⟩ := h.significand wide
  by_cases large : s ≤ e
  · exact .inl (Nat.dvd_mul_left_of_dvd (Nat.pow_dvd_pow 2 large) m)
  · right
    calc m * 2 ^ e < 2 * F.hidden * 2 ^ e := Nat.mul_lt_mul_of_pos_right small (Nat.two_pow_pos e)
      _ = F.hidden * 2 ^ (e + 1) := by rw [Nat.pow_succ]; ac_rfl
      _ ≤ F.hidden * 2 ^ s := Nat.mul_le_mul_left _ (Nat.pow_le_pow_right (by decide) (by omega))

theorem half_up_of_dvd {n unit : Nat} (positive : 0 < unit) (integral : unit ∣ n) :
    (2 * n + unit) / (2 * unit) * unit = n := by
  obtain ⟨k, rfl⟩ := integral
  have sum : 2 * (unit * k) + unit = unit + 2 * unit * k := by
    rw [Nat.mul_assoc, Nat.add_comm]
  rw [sum, Nat.add_mul_div_left _ _ (by omega), Nat.div_eq_of_lt (by omega), Nat.zero_add,
    Nat.mul_comm]

/-- Rounding a magnitude to a whole number of units gives a magnitude held exactly. -/
theorem Represents.half_up {F : Format} {n s : Nat} (h : F.Represents n)
    (fits : s + 3 ≤ 2 ^ F.exponentBits) :
    F.Represents ((2 * n + 2 ^ s) / (2 * 2 ^ s) * 2 ^ s) := by
  have positive := Nat.two_pow_pos s
  rcases h.dvd_or_lt (by omega) s with integral | small
  · rwa [half_up_of_dvd positive integral]
  · refine represents_mul_pow ?_ fits
    have hidden := F.hidden_pos
    rw [Nat.div_lt_iff_lt_mul (by omega)]
    have room : 2 * F.hidden * (2 * 2 ^ s) = 2 * (2 * (F.hidden * 2 ^ s)) := by ac_rfl
    have unit : 2 ^ s ≤ F.hidden * 2 ^ s := Nat.le_mul_of_pos_left _ hidden
    omega

end Format

namespace Binary64

/-- One is a power of two units, well inside the exponent range. The exponent stays unnamed
so that nothing computes the power. -/
theorem scale_pow : ∃ s, s + 3 ≤ 2 ^ Format.binary64.exponentBits ∧ scale = 2 ^ s := by
  have shifted : ∀ s, s + 3 ≤ 2 ^ Format.binary64.exponentBits →
      ∃ s', s' + 3 ≤ 2 ^ Format.binary64.exponentBits ∧ 1 <<< s = 2 ^ s' :=
    fun s fits => ⟨s, fits, Nat.one_shiftLeft s⟩
  exact shifted 1074 (by decide)

theorem scale_pos : 0 < scale := by
  obtain ⟨s, -, power⟩ := scale_pow
  rw [power]
  exact Nat.two_pow_pos s

theorem ext_magnitude {x y : Binary64} (sign : x.negative = y.negative)
    (code : x.magnitude.toNat = y.magnitude.toNat) : x = y := by
  obtain ⟨nx, mx⟩ := x
  obtain ⟨ny, my⟩ := y
  simp only [mk.injEq]
  exact ⟨sign, BitVec.eq_of_toNat_eq code⟩

theorem represents_units {x : Binary64} (finite : x.isFinite) :
    Format.binary64.Represents x.units :=
  ⟨x.magnitude.toNat, by simpa [isFinite] using finite, rfl⟩

theorem isNaN_of_isFinite {x : Binary64} (finite : x.isFinite) : x.isNaN = false := by
  simp only [isFinite, isNaN, decide_eq_true_eq, decide_eq_false_iff_not] at finite ⊢
  omega

theorem isInfinite_of_isFinite {x : Binary64} (finite : x.isFinite) : x.isInfinite = false := by
  simp only [isFinite, isInfinite, decide_eq_true_eq, decide_eq_false_iff_not] at finite ⊢
  omega

theorem rounded_exact {n : Nat} (negative : Bool) (h : Format.binary64.Represents n) :
    (rounded negative n 1).isFinite ∧ (rounded negative n 1).units = n := by
  obtain ⟨finite, exact⟩ := h.round
  simp only [isFinite, units, rounded_magnitude, finite, exact, decide_true, and_self]

theorem rounded_units {x : Binary64} (finite : x.isFinite) :
    rounded x.negative x.units 1 = x := by
  have below : x.magnitude.toNat < Format.binary64.infinity := by simpa [isFinite] using finite
  refine ext_magnitude (rounded_negative ..) ?_
  rw [rounded_magnitude, units]
  exact Format.round_units (Nat.le_of_lt below)

theorem units_round {x : Binary64} (finite : x.isFinite) :
    x.round.isFinite ∧ x.round.units = (2 * x.units + scale) / (2 * scale) * scale := by
  obtain ⟨s, fits, power⟩ := scale_pow
  have held := (represents_units finite).half_up fits
  rw [← power] at held
  rw [round, if_pos finite]
  exact rounded_exact x.negative held

theorem round_integral {x : Binary64} (finite : x.isFinite) :
    x.round.isFinite ∧ scale ∣ x.round.units := by
  obtain ⟨still, exact⟩ := units_round finite
  exact ⟨still, by rw [exact]; exact Nat.dvd_mul_left ..⟩

theorem round_of_integral {x : Binary64} (finite : x.isFinite) (integral : scale ∣ x.units) :
    x.round = x := by
  rw [round, if_pos finite, Format.half_up_of_dvd scale_pos integral, rounded_units finite]

end Binary64
end TensorGraph
