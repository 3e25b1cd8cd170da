import TensorGraph.Proofs.Number.Rounding
import TensorGraph.Tensor.Elementwise

/-!
Coercion to an element kind leaves a coerced number alone. Single precision keeps signs and
NaNs, so it also commutes with cutting off below zero: a sum rounded before and after the
cut-off is the sum rounded once.
-/

namespace TensorGraph
namespace Binary64

theorem magnitude_ofCode_or {a b : Nat} (ha : a < signBit) (hb : b < signBit)
    (negative : Bool) : (ofCode negative (a ||| b)).magnitude.toNat = a ||| b :=
  ofCode_magnitude (Nat.or_lt_two_pow (n := 63) ha hb)

theorem represents_single {code : Nat} (finite : code < Format.binary32.infinity) :
    Format.binary64.Represents (Format.binary32.units code * singleScale) := by
  have held : Format.binary32.Represents (Format.binary32.units code) := ⟨code, finite, rfl⟩
  obtain ⟨m, e, small, short, magnitude⟩ := held.significand (by decide)
  have shifted : ∀ s, s + 2 ^ Format.binary32.exponentBits ≤ 2 ^ Format.binary64.exponentBits →
      Format.binary64.Represents (m * 2 ^ e * 1 <<< s) := by
    intro s fits
    have wide : m < 2 * Format.binary64.hidden :=
      Nat.lt_of_lt_of_le small (by decide)
    rw [Nat.one_shiftLeft, Nat.mul_assoc, ← Nat.pow_add]
    exact Format.represents_mul_pow wide (by omega)
  rw [magnitude]
  exact shifted 925 (by decide)

theorem singleCode_finite {x : Binary64} (finite : x.isFinite) :
    x.singleCode = Format.binary32.round x.units singleScale := by
  simp [singleCode, isNaN_of_isFinite finite, isInfinite_of_isFinite finite]

theorem singleScale_pos : 0 < singleScale := by
  have shifted : ∀ s, 0 < 1 <<< s := fun s => by
    rw [Nat.one_shiftLeft]
    exact Nat.two_pow_pos s
  exact shifted 925

theorem ofSingleCode_number {code : Nat} (negative : Bool)
    (number : code ≤ Format.binary32.infinity) :
    (ofSingleCode negative code).isNaN = false ∧
      (ofSingleCode negative code).singleCode = code := by
  have infinite : (infinity negative).magnitude.toNat = Format.binary64.infinity :=
    ofCode_magnitude (by decide)
  by_cases full : code = Format.binary32.infinity
  · subst full
    simp [ofSingleCode, singleCode, isNaN, isInfinite, infinite]
  · have finite : code < Format.binary32.infinity := by omega
    obtain ⟨still, exact⟩ := rounded_exact negative (represents_single finite)
    have below : (rounded negative (Format.binary32.units code * singleScale) 1).magnitude.toNat
        < Format.binary64.infinity := by simpa [isFinite] using still
    rw [ofSingleCode, if_neg (by omega), if_neg full, singleCode_finite still, exact,
      Format.round_mul _ _ singleScale_pos, Format.round_units number]
    exact ⟨by simp only [isNaN, decide_eq_false_iff_not]; omega, rfl⟩

/-- The payload a NaN keeps in single precision; its leading bit is set. -/
def singlePayload (x : Binary64) : Nat :=
  x.magnitude.toNat >>> fractionGap % Format.binary32.hidden ||| Format.binary32.quietBit

theorem singlePayload_lt (x : Binary64) : x.singlePayload < Format.binary32.hidden :=
  Nat.or_lt_two_pow (n := 23) (Nat.mod_lt _ (by decide)) (by decide)

theorem singlePayload_quiet (x : Binary64) :
    x.singlePayload ||| Format.binary32.quietBit = x.singlePayload := by
  rw [singlePayload, Nat.or_assoc, Nat.or_self]

theorem singleCode_nan {x : Binary64} (nan : x.isNaN) :
    x.singleCode = Format.binary32.infinity ||| x.singlePayload := by
  rw [singleCode, if_pos nan, Nat.or_assoc, singlePayload]

theorem singleCode_nan_mod {x : Binary64} (nan : x.isNaN) :
    x.singleCode % Format.binary32.hidden = x.singlePayload := by
  have blank : Format.binary32.infinity % 2 ^ 23 = 0 := by decide
  have small : x.singlePayload < 2 ^ 23 := x.singlePayload_lt
  rw [singleCode_nan nan, show Format.binary32.hidden = 2 ^ 23 from rfl, Nat.or_mod_two_pow,
    blank, Nat.zero_or, Nat.mod_eq_of_lt small]

theorem infinity_lt_singleCode {x : Binary64} (nan : x.isNaN) :
    Format.binary32.infinity < x.singleCode := by
  have payload := singleCode_nan_mod nan
  have positive : 0 < x.singlePayload :=
    Nat.lt_of_lt_of_le (show 0 < Format.binary32.quietBit by decide) Nat.right_le_or
  refine Nat.lt_of_le_of_ne ?_ ?_
  · rw [singleCode_nan nan]
    exact Nat.left_le_or
  · intro same
    rw [← same, show Format.binary32.infinity % Format.binary32.hidden = 0 by decide] at payload
    omega

theorem magnitude_toSingle_nan {x : Binary64} (nan : x.isNaN) :
    x.toSingle.magnitude.toNat = Format.binary64.infinity |||
      (x.singlePayload <<< fractionGap ||| Format.binary64.quietBit) := by
  have shifted : x.singlePayload <<< fractionGap < 2 ^ 52 := by
    rw [Nat.shiftLeft_eq]
    have := x.singlePayload_lt
    rw [show Format.binary32.hidden = 2 ^ 23 from rfl] at this
    simp only [fractionGap]
    omega
  rw [toSingle, ofSingleCode, if_pos (infinity_lt_singleCode nan), singleCode_nan_mod nan,
    Nat.or_assoc]
  exact magnitude_ofCode_or (by decide)
    (Nat.lt_of_lt_of_le (Nat.or_lt_two_pow shifted (by decide)) (by decide)) _

theorem toSingle_nan {x : Binary64} (nan : x.isNaN) :
    x.toSingle.isNaN ∧ x.toSingle.singlePayload = x.singlePayload := by
  have magnitude := magnitude_toSingle_nan nan
  constructor
  · simp only [isNaN, magnitude, decide_eq_true_eq]
    refine Nat.lt_of_le_of_ne Nat.left_le_or fun same => ?_
    have bit := congrArg (Nat.testBit · 51) same
    simp only [Nat.testBit_or] at bit
    rw [show Nat.testBit Format.binary64.quietBit 51 = true by decide,
      show Nat.testBit Format.binary64.infinity 51 = false by decide] at bit
    simp at bit
  · have blank : Format.binary64.infinity >>> fractionGap % 2 ^ 23 = 0 := by decide
    have quiet : Format.binary64.quietBit >>> fractionGap % 2 ^ 23 =
        Format.binary32.quietBit := by decide
    have back : x.singlePayload <<< fractionGap >>> fractionGap = x.singlePayload :=
      Nat.shiftLeft_shiftRight ..
    have small : x.singlePayload < 2 ^ 23 := x.singlePayload_lt
    rw [singlePayload, magnitude, show Format.binary32.hidden = 2 ^ 23 from rfl,
      Nat.shiftRight_or_distrib, Nat.shiftRight_or_distrib, Nat.or_mod_two_pow,
      Nat.or_mod_two_pow, blank, quiet, back, Nat.mod_eq_of_lt small, Nat.zero_or,
      singlePayload_quiet, singlePayload_quiet]

theorem singleCode_le {x : Binary64} (number : x.isNaN = false) :
    x.singleCode ≤ Format.binary32.infinity := by
  rw [singleCode, number, if_neg (by decide)]
  split
  · exact Nat.le_refl _
  · exact Format.round_le_infinity ..

@[simp] theorem isNaN_toSingle (x : Binary64) : x.toSingle.isNaN = x.isNaN := by
  cases nan : x.isNaN with
  | true => exact (toSingle_nan nan).1
  | false =>
    rw [toSingle]
    exact (ofSingleCode_number _ (singleCode_le nan)).1

@[simp] theorem negative_toSingle (x : Binary64) : x.toSingle.negative = x.negative := by
  rw [toSingle, ofSingleCode]
  split
  · exact ofCode_negative ..
  · split
    · exact ofCode_negative ..
    · exact rounded_negative ..

theorem singleCode_toSingle (x : Binary64) : x.toSingle.singleCode = x.singleCode := by
  cases nan : x.isNaN with
  | true =>
    obtain ⟨still, payload⟩ := toSingle_nan nan
    rw [singleCode_nan still, singleCode_nan nan, payload]
  | false =>
    rw [toSingle]
    exact (ofSingleCode_number _ (singleCode_le nan)).2

@[simp] theorem toSingle_toSingle (x : Binary64) : x.toSingle.toSingle = x.toSingle := by
  rw [toSingle, negative_toSingle, singleCode_toSingle, ← toSingle]

theorem toSingle_zero : (zero false).toSingle = zero false := by decide +kernel

/-- Negative zero counts as negative here: positive zero is the larger of the two. -/
theorem relu_eq (v : Binary64) :
    relu v = if v.isNaN || v.negative then zero false else v := by
  have number : (zero false).isNaN = false := by decide
  have null : (zero false).isZero = true := by decide
  have level : (zero false).rank = 0 := by decide
  have plain : (zero false).negative = false := rfl
  cases nan : v.isNaN with
  | true => simp [relu, max, nan, number]
  | false =>
    by_cases blank : v.isZero
    · have magnitude : v.magnitude.toNat = 0 := by simpa [isZero] using blank
      cases sign : v.negative with
      | true => simp [relu, max, nan, number, null, blank, plain]
      | false =>
        have : v = zero false := ext_magnitude sign magnitude
        simp [relu, max, this, number, null, plain]
    · have magnitude : v.magnitude.toNat ≠ 0 := by simpa [isZero] using blank
      cases sign : v.negative with
      | true =>
        have below : v.rank < 0 := by
          rw [rank, if_pos sign]
          omega
        simp [relu, max, nan, number, blank, blt, level, below]
      | false =>
        have above : ¬ v.rank < 0 := by
          rw [rank, sign, if_neg (by decide)]
          omega
        simp [relu, max, nan, number, blank, blt, level, above]

theorem relu_toSingle (v : Binary64) : relu v.toSingle = (relu v).toSingle := by
  rw [relu_eq, relu_eq, isNaN_toSingle, negative_toSingle]
  split
  · rw [toSingle_zero]
  · rfl

theorem isNaN_round {v : Binary64} (number : v.isNaN = false) : v.round.isNaN = false := by
  by_cases finite : v.isFinite
  · exact isNaN_of_isFinite (round_integral finite).1
  · rw [round, if_neg finite, number]

@[simp] theorem round_round (v : Binary64) : v.round.round = v.round := by
  by_cases finite : v.isFinite
  · obtain ⟨still, integral⟩ := round_integral finite
    exact round_of_integral still integral
  · have same : v.round = v := by rw [round, if_neg finite]
    rw [same, same]

theorem blt_self (v : Binary64) : v.blt v = false := by simp [blt]

end Binary64

namespace ElementKind

theorem saturate_fixed {low high : Int} {v : Binary64} (number : v.isNaN = false)
    (whole : v.round = v) (above : v.blt (.ofInt low) = false)
    (below : (Binary64.ofInt high).blt v = false) : saturate low high v = v := by
  simp [saturate, number, whole, Binary64.clamp, above, below]

/-- What saturating needs of its two bounds to be a projection. -/
structure Bounds (low high : Binary64) : Prop where
  low_number : low.isNaN = false
  high_number : high.isNaN = false
  low_whole : low.round = low
  high_whole : high.round = high
  zero_above : (Binary64.zero false).blt low = false
  zero_below : high.blt (Binary64.zero false) = false
  ordered : high.blt low = false

theorem bounds_int8 : Bounds (.ofInt int8.least) (.ofInt int8.greatest) := by
  constructor <;> decide +kernel

theorem bounds_int32 : Bounds (.ofInt int32.least) (.ofInt int32.greatest) := by
  constructor <;> decide +kernel

theorem bounds_index : Bounds (.ofInt index.least) (.ofInt index.greatest) := by
  constructor <;> decide +kernel

theorem saturate_saturate {low high : Int} (bounds : Bounds (.ofInt low) (.ofInt high))
    (v : Binary64) : saturate low high (saturate low high v) = saturate low high v := by
  cases nan : v.isNaN with
  | true =>
    have result : saturate low high v = .zero false := by simp [saturate, nan]
    rw [result]
    exact saturate_fixed (by decide) (by decide +kernel) bounds.zero_above bounds.zero_below
  | false =>
    have result : saturate low high v = v.round.clamp (.ofInt low) (.ofInt high) := by
      simp [saturate, nan]
    rw [result, Binary64.clamp]
    split
    · exact saturate_fixed bounds.low_number bounds.low_whole (Binary64.blt_self _) bounds.ordered
    · rename_i above
      split
      · exact saturate_fixed bounds.high_number bounds.high_whole bounds.ordered
          (Binary64.blt_self _)
      · rename_i below
        exact saturate_fixed (Binary64.isNaN_round nan) (Binary64.round_round v)
          (Bool.eq_false_iff.2 above)
          (Bool.eq_false_iff.2 below)

@[simp] theorem coerce_coerce (kind : ElementKind) (v : Binary64) :
    kind.coerce (kind.coerce v) = kind.coerce v := by
  cases kind with
  | float => exact v.toSingle_toSingle
  | double => rfl
  | int8 => exact saturate_saturate bounds_int8 v
  | int32 => exact saturate_saturate bounds_int32 v
  | index => exact saturate_saturate bounds_index v

/-- On float kinds a number may be cut off before or after it is coerced. -/
theorem coerce_relu {kind : ElementKind} (float : kind.isFloat) (v : Binary64) :
    kind.coerce (relu (kind.coerce v)) = kind.coerce (relu v) := by
  cases kind with
  | float =>
    simp only [coerce]
    rw [Binary64.relu_toSingle, Binary64.toSingle_toSingle]
  | double => rfl
  | int8 | int32 | index => cases float

end ElementKind
end TensorGraph
