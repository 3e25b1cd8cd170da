/-!
Binary interchange formats. A finite magnitude is a whole number of *units*, the least
positive magnitude of its format, so that decoding and rounding are arithmetic on natural
numbers. `units` decodes a code; `round` gives the code nearest to a quotient of naturals,
ties going to the even code and everything past the largest finite code to infinity.
-/

namespace TensorGraph

/-- A format by the widths of its two stored fields. -/
structure Format where
  fractionBits : Nat
  exponentBits : Nat
  deriving DecidableEq, Repr

namespace Format

def binary32 : Format := ⟨23, 8⟩
def binary64 : Format := ⟨52, 11⟩

/-- The place of the hidden bit, one above the fraction. -/
def hidden (F : Format) : Nat := 1 <<< F.fractionBits

/-- The code of infinity: a full exponent field over an empty fraction. Larger codes are NaNs. -/
def infinity (F : Format) : Nat := ((1 <<< F.exponentBits) - 1) * F.hidden

/-- The leading fraction bit. It is set in a quiet NaN. -/
def quietBit (F : Format) : Nat := 1 <<< (F.fractionBits - 1)

/-- The magnitude of a finite code. Subnormals lack the hidden bit. -/
def units (F : Format) (code : Nat) : Nat :=
  let exponent := code / F.hidden
  if exponent = 0 then code else (F.hidden + code % F.hidden) <<< (exponent - 1)

/-- The natural number nearest to a quotient; a tie goes to the even neighbour. -/
def nearest (numerator denominator : Nat) : Nat :=
  let quotient := numerator / denominator
  let twice := 2 * (numerator % denominator)
  if twice < denominator then quotient
  else if denominator < twice then quotient + 1
  else quotient + quotient % 2

/-- The code nearest to `numerator / denominator` units. A carry out of the significand
moves on to the next exponent by itself, because the fields are adjacent. -/
def round (F : Format) (numerator denominator : Nat) : Nat :=
  let shift := (numerator / denominator).log2 - F.fractionBits
  min (shift * F.hidden + nearest numerator (denominator <<< shift)) F.infinity

theorem hidden_pos (F : Format) : 0 < F.hidden := by
  rw [hidden, Nat.one_shiftLeft]
  exact Nat.two_pow_pos _

theorem log2_hidden_add {F : Format} {fraction : Nat} (h : fraction < F.hidden) :
    (F.hidden + fraction).log2 = F.fractionBits := by
  rw [hidden, Nat.one_shiftLeft] at h ⊢
  have := Nat.two_pow_pos F.fractionBits
  exact (Nat.log2_eq_iff (by omega)).2 ⟨by omega, by rw [Nat.pow_succ]; omega⟩

theorem round_le_infinity (F : Format) (numerator denominator : Nat) :
    F.round numerator denominator ≤ F.infinity := Nat.min_le_right _ _

theorem units_of_lt {F : Format} {code : Nat} (h : code < F.hidden) : F.units code = code := by
  simp [units, Nat.div_eq_of_lt h]

@[simp] theorem units_zero (F : Format) : F.units 0 = 0 := units_of_lt F.hidden_pos

@[simp] theorem nearest_one (n : Nat) : nearest n 1 = n := by
  simp [nearest, Nat.mod_one]

@[simp] theorem round_zero (F : Format) (denominator : Nat) : F.round 0 denominator = 0 := by
  by_cases h : denominator = 0 <;> simp [round, nearest, h]

theorem nearest_mul (m : Nat) {k : Nat} (h : 0 < k) : nearest (m * k) k = m := by
  simp [nearest, Nat.mul_div_cancel _ h, h]

theorem nearest_shiftLeft (m k : Nat) : nearest (m <<< k) (1 <<< k) = m := by
  rw [Nat.shiftLeft_eq, Nat.one_shiftLeft]
  exact nearest_mul m (Nat.two_pow_pos k)

theorem log2_shiftLeft {m : Nat} (h : m ≠ 0) (k : Nat) : (m <<< k).log2 = m.log2 + k := by
  rw [Nat.shiftLeft_eq]
  refine (Nat.log2_eq_iff (Nat.mul_ne_zero h (Nat.ne_of_gt (Nat.two_pow_pos k)))).2 ⟨?_, ?_⟩
  · rw [Nat.pow_add]
    exact Nat.mul_le_mul_right _ (Nat.log2_self_le h)
  · rw [Nat.add_right_comm, Nat.pow_add]
    exact Nat.mul_lt_mul_of_pos_right Nat.lt_log2_self (Nat.two_pow_pos k)

theorem round_units {F : Format} {code : Nat} (h : code ≤ F.infinity) :
    F.round (F.units code) 1 = code := by
  by_cases small : code < F.hidden
  · have shift : code.log2 - F.fractionBits = 0 := by
      by_cases zero : code = 0
      · simp [zero]
      · rw [hidden, Nat.one_shiftLeft] at small
        have := (Nat.log2_lt zero).2 small
        omega
    simp [units_of_lt small, round, shift, h]
  · have hidden := F.hidden_pos
    have exponent : code / F.hidden ≠ 0 := by
      rw [Ne, Nat.div_eq_zero_iff]
      omega
    have fraction := Nat.mod_lt code hidden
    have split := Nat.div_add_mod code F.hidden
    generalize hE : code / F.hidden = E at *
    generalize hr : code % F.hidden = r at *
    obtain ⟨e, rfl⟩ := Nat.exists_eq_succ_of_ne_zero exponent
    have magnitude : F.units code = (F.hidden + r) <<< e := by simp [units, hE, hr]
    have shift : (F.units code).log2 - F.fractionBits = e := by
      rw [magnitude, log2_shiftLeft (by omega), log2_hidden_add fraction]
      omega
    have rounded : nearest (F.units code) (1 <<< e) = F.hidden + r := by
      rw [magnitude, nearest_shiftLeft]
    have : e * F.hidden + (F.hidden + r) = code := by
      rw [← split, Nat.mul_succ, Nat.mul_comm e]
      omega
    simp only [round, Nat.div_one, shift, rounded]
    omega

end Format
end TensorGraph
