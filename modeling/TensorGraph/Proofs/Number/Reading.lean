import TensorGraph.Proofs.Bundle.Region
import TensorGraph.Proofs.Number.Bounds

/-!
Reading numbers as integers. A number that is read or written as an integer is taken to the nearest
one, a half going away from zero, and held between the bounds of its kind. Writing always does
that. Reading does not where the greatest bound is no number itself: an index that has reached
`2 ^ 64` is written as the greatest 64-bit integer and read as 0.
-/

namespace TensorGraph

namespace Binary64

variable {v w : Binary64} {m n : Int}

/-- No integer is nearer to the number than `n`, and one that is as near is not further from
zero. -/
structure Nearest (v : Binary64) (n : Int) : Prop where
  near : 2 * (v.value - n * scale).natAbs ≤ scale
  away : 2 * (v.value - n * scale).natAbs = scale → v.value.natAbs ≤ (n * scale).natAbs

theorem Nearest.mono (left : v.Nearest m) (right : w.Nearest n) (below : v.value ≤ w.value) :
    m ≤ n := by
  by_contra above
  have positive := Int.natCast_pos.2 scale_pos
  have step : (n + 1) * scale ≤ m * scale :=
    Int.mul_le_mul_of_nonneg_right (by omega) (Int.le_of_lt positive)
  have side : 0 ≤ n * (scale : Int) ∨ (n + 1) * (scale : Int) ≤ 0 := by
    rcases Int.lt_or_le n 0 with negative | natural
    · exact .inr (Int.mul_nonpos_of_nonpos_of_nonneg (by omega) (Int.le_of_lt positive))
    · exact .inl (Int.mul_nonneg natural (Int.le_of_lt positive))
  rw [Int.add_mul, Int.one_mul] at step side
  -- Both numbers are half way between `n` and `m`, and one of the two goes towards zero.
  obtain ⟨near, away⟩ := left
  obtain ⟨near', away'⟩ := right
  omega

theorem Nearest.unique (left : v.Nearest m) (right : v.Nearest n) : m = n :=
  Int.le_antisymm (left.mono right (Int.le_refl _)) (right.mono left (Int.le_refl _))

theorem nearest_of_toInt? (found : v.toInt? = some n) : v.Nearest n := by
  obtain ⟨-, exact, -⟩ := of_toInt? found
  constructor <;> rw [exact] <;> omega

theorem nearest_round (finite : v.isFinite) :
    ∃ m, v.round.toInt? = some m ∧ v.Nearest m := by
  obtain ⟨still, units⟩ := units_round finite
  have sign : v.round.negative = v.negative := by rw [round, if_pos finite, rounded_negative]
  have found : v.round.toInt? = some v.round.integerPart :=
    toInt?_of_integral still (round_integral finite).2
  refine ⟨_, found, ?_⟩
  obtain ⟨-, exact, -⟩ := of_toInt? found
  have positive := scale_pos
  have low := Nat.div_mul_le_self (2 * v.units + scale) (2 * scale)
  have high := Nat.lt_div_mul_add (a := 2 * v.units + scale) (b := 2 * scale) (by omega)
  have twice : (2 * v.units + scale) / (2 * scale) * (2 * scale) = 2 * v.round.units := by
    rw [units, Nat.mul_left_comm]
  constructor <;>
  · rw [← exact, value, value, sign]
    split <;> omega

/-- From `2 ^ 52` on every number is an integer, so none is just below an integer beyond that. -/
theorem Nearest.le_iff (finite : v.isFinite) (nearest : v.Nearest m) {bound : Binary64}
    (exact : bound.toInt? = some n) (large : Format.binary64.hidden < n) :
    n ≤ m ↔ bound.value ≤ v.value := by
  refine ⟨fun reached => ?_, (nearest_of_toInt? exact).mono nearest⟩
  obtain ⟨s, -, power⟩ := scale_pow
  have positive := Int.natCast_pos.2 scale_pos
  rw [(of_toInt? exact).2.1]
  have scaled : n * scale ≤ m * scale :=
    Int.mul_le_mul_of_nonneg_right reached (Int.le_of_lt positive)
  rcases (represents_units finite).dvd_or_lt (by decide) s with integral | small
  · have found := toInt?_of_integral finite (power ▸ integral)
    obtain rfl := nearest.unique (nearest_of_toInt? found)
    rwa [(of_toInt? found).2.1]
  · have beyond : (Format.binary64.hidden + 1) * (scale : Int) ≤ n * scale :=
      Int.mul_le_mul_of_nonneg_right (by omega) (Int.le_of_lt positive)
    have low : ((v.units : Nat) : Int) < Format.binary64.hidden * scale := by
      rw [← power] at small
      exact_mod_cast small
    have size := natAbs_value v
    have near := nearest.near
    rw [Int.add_mul, Int.one_mul] at beyond
    omega

theorem rank_lt_rank (found : v.toInt? = some m) (found' : w.toInt? = some n) :
    v.rank < w.rank ↔ m < n := by
  rw [← value_lt_value, (of_toInt? found).2.1, (of_toInt? found').2.1]
  exact Int.mul_lt_mul_right (Int.natCast_pos.2 scale_pos)

theorem isInfinite_iff : v.isInfinite ↔ v.rank.natAbs = Format.binary64.infinity := by
  simp [isInfinite, natAbs_rank]

theorem isFinite_or_isInfinite (number : v.isNaN = false) : v.isFinite ∨ v.isInfinite := by
  rw [isFinite_iff, isInfinite_iff, natAbs_rank]
  exact Nat.lt_or_eq_of_le (by simpa [isNaN] using number)

theorem negative_iff_rank (infinite : v.isInfinite) : v.negative ↔ v.rank < 0 := by
  have code : 0 < v.magnitude.toNat := by
    rw [← natAbs_rank, isInfinite_iff.1 infinite]
    decide
  rw [rank]
  split
  next sign =>
    simp only [sign, true_iff]
    omega
  next sign => simp [sign]

end Binary64

namespace ElementKind

variable {kind : ElementKind} {v w : Binary64} {m n : Int}

/-- The integer that a number stands for on an integer kind: the nearest one, held between the
bounds of the kind. An infinity stands for a bound. -/
def ClampsTo (kind : ElementKind) (v : Binary64) (n : Int) : Prop :=
  (v.isInfinite ∧ n = if v.negative then kind.least else kind.greatest) ∨
    v.isFinite ∧ ∃ m, v.Nearest m ∧ n = max kind.least (min kind.greatest m)

/-- An index that has reached `2 ^ 64`. -/
def Overruns (kind : ElementKind) (v : Binary64) : Prop :=
  kind = .index ∧ (Binary64.ofInt (index.greatest + 1)).ble v = true

instance (kind : ElementKind) (v : Binary64) : Decidable (kind.Overruns v) :=
  inferInstanceAs (Decidable (_ ∧ _))

theorem ClampsTo.within (clamps : kind.ClampsTo v n) : kind.least ≤ n ∧ n ≤ kind.greatest := by
  have order := kind.zero_within
  rcases clamps with ⟨-, rfl⟩ | ⟨-, m, -, rfl⟩
  · split <;> omega
  · omega

theorem ClampsTo.mono (left : kind.ClampsTo v m) (right : kind.ClampsTo w n)
    (below : v.ble w) : m ≤ n := by
  have first := left.within
  have second := right.within
  simp only [Binary64.ble, Bool.and_eq_true, Bool.not_eq_true', decide_eq_true_eq] at below
  obtain ⟨⟨number, number'⟩, ranks⟩ := below
  rcases left with ⟨infinite, bound⟩ | ⟨finite, i, nearest, rfl⟩ <;>
    rcases right with ⟨infinite', bound'⟩ | ⟨finite', j, nearest', rfl⟩
  · have sign := Binary64.negative_iff_rank infinite
    have sign' := Binary64.negative_iff_rank infinite'
    split at bound'
    next negative =>
      rw [if_pos (sign.2 (Int.lt_of_le_of_lt ranks (sign'.1 negative)))] at bound
      omega
    next => omega
  · have sign := Binary64.negative_iff_rank infinite
    rw [Binary64.isInfinite_iff] at infinite
    rw [Binary64.isFinite_iff] at finite'
    rw [if_pos (sign.2 (by omega))] at bound
    omega
  · have sign := Binary64.negative_iff_rank infinite'
    rw [Binary64.isInfinite_iff] at infinite'
    rw [Binary64.isFinite_iff] at finite
    rw [if_neg (sign.not.2 (by omega))] at bound'
    omega
  · have := nearest.mono nearest' (Binary64.value_le_value.2 ranks)
    omega

theorem ClampsTo.unique (left : kind.ClampsTo v m) (right : kind.ClampsTo v n)
    (number : v.isNaN = false) : m = n := by
  have level : v.ble v = true := by simp [Binary64.ble, number]
  exact Int.le_antisymm (left.mono right level) (right.mono left level)

/-- The bounds of an integer kind as integers that numbers are. The greatest index is no number: the
integer after it takes its place. -/
theorem bounds_toInt? (whole : kind.isFloat = false) :
    (Binary64.ofInt kind.least).toInt? = some kind.least ∧
      ∃ top, (Binary64.ofInt kind.greatest).toInt? = some top ∧ kind.greatest ≤ top ∧
        (kind.greatest < top ↔ kind = .index) ∧ top ≤ kind.greatest + 1 := by
  cases kind with
  | float | double => cases whole
  | int8 => exact ⟨by decide +kernel, int8.greatest, by decide +kernel, by decide⟩
  | int32 => exact ⟨by decide +kernel, int32.greatest, by decide +kernel, by decide⟩
  | index => exact ⟨by decide +kernel, index.greatest + 1, by decide +kernel, by decide⟩

theorem coerce_cases (whole : kind.isFloat = false) (number : v.isNaN = false) :
    (v.round.rank < (Binary64.ofInt kind.least).rank ∧ kind.coerce v = .ofInt kind.least) ∨
    ((Binary64.ofInt kind.greatest).rank < v.round.rank ∧ kind.coerce v = .ofInt kind.greatest) ∨
    ((Binary64.ofInt kind.least).rank ≤ v.round.rank ∧
      v.round.rank ≤ (Binary64.ofInt kind.greatest).rank ∧ kind.coerce v = v.round) := by
  have bounds := bounds_of_whole whole
  have still := Binary64.isNaN_round number
  rw [coerce_whole whole, saturate, number, if_neg Bool.false_ne_true, Binary64.clamp]
  simp only [Binary64.blt, still, bounds.low_number, bounds.high_number, Bool.not_false,
    Bool.true_and, decide_eq_true_eq]
  split
  next below => exact .inl ⟨below, rfl⟩
  next above =>
    split
    next beyond => exact .inr (.inl ⟨beyond, rfl⟩)
    next inside => exact .inr (.inr ⟨Int.le_of_not_gt above, Int.le_of_not_gt inside, rfl⟩)

theorem overruns_iff (number : v.isNaN = false) :
    kind.Overruns v ↔ kind = .index ∧ (Binary64.ofInt kind.greatest).rank ≤ v.rank := by
  have bound : (Binary64.ofInt (index.greatest + 1)) = .ofInt index.greatest := by decide +kernel
  have plain : (Binary64.ofInt index.greatest).isNaN = false := bounds_index.high_number
  rw [Overruns, bound]
  refine and_congr_right fun same => ?_
  subst same
  simp [Binary64.ble, number, plain]

theorem coerce_infinite (whole : kind.isFloat = false) (infinite : v.isInfinite) :
    kind.coerce v = .ofInt (if v.negative then kind.least else kind.greatest) := by
  have sign := Binary64.negative_iff_rank infinite
  obtain ⟨lowFinite, highFinite, -⟩ := bounds_value whole
  rw [Binary64.isInfinite_iff] at infinite
  rw [Binary64.isFinite_iff] at lowFinite highFinite
  have number : v.isNaN = false := by
    rw [Binary64.natAbs_rank] at infinite
    simp [Binary64.isNaN, infinite]
  have same : v.round = v := by
    rw [Binary64.round, if_neg (by rw [Binary64.isFinite_iff]; omega)]
  have outcome := coerce_cases whole number
  rw [same] at outcome
  rcases outcome with ⟨below, made⟩ | ⟨above, made⟩ | ⟨above, below, -⟩
  · rw [made, if_pos (sign.2 (by omega))]
  · rw [made, if_neg (sign.not.2 (by omega))]
  · omega

/-- Coercion gives an integer that, but for the upper bound, is the one the number stands for. -/
theorem coerce_clamps (whole : kind.isFloat = false) (number : v.isNaN = false) :
    ∃ k, (kind.coerce v).toInt? = some k ∧ kind.least ≤ k ∧
      kind.ClampsTo v (min kind.greatest k) ∧ (kind.greatest < k ↔ kind.Overruns v) := by
  obtain ⟨low, top, high, atTop, wide, next⟩ := bounds_toInt? whole
  have order := kind.zero_within
  rw [overruns_iff number]
  rcases Binary64.isFinite_or_isInfinite number with finite | infinite
  · obtain ⟨m, found, nearest⟩ := Binary64.nearest_round finite
    -- The rounded number and the bounds, as numbers and as integers.
    have lowest := Binary64.rank_lt_rank found low
    have highest := Binary64.rank_lt_rank high found
    have reaches : (kind = .index ∧ (Binary64.ofInt kind.greatest).rank ≤ v.rank) ↔
        kind.greatest < top ∧ top ≤ m := by
      rw [← wide, ← Binary64.value_le_value]
      refine and_congr_right fun beyond => (nearest.le_iff finite high ?_).symm
      have large : (Format.binary64.hidden : Int) < index.greatest := by decide
      rw [wide.1 beyond] at atTop
      omega
    rw [reaches]
    rcases coerce_cases whole number with ⟨below, made⟩ | ⟨above, made⟩ | ⟨above, below, made⟩
    · rw [made]
      exact ⟨_, low, Int.le_refl _, .inr ⟨finite, m, nearest, by omega⟩, by omega⟩
    · rw [made]
      exact ⟨top, high, by omega, .inr ⟨finite, m, nearest, by omega⟩, by omega⟩
    · rw [made]
      exact ⟨m, found, by omega, .inr ⟨finite, m, nearest, by omega⟩, by omega⟩
  · have sign := Binary64.negative_iff_rank infinite
    have outermost := Binary64.isInfinite_iff.1 infinite
    have inside := Binary64.isFinite_iff.1 (Binary64.of_toInt? high).1
    rw [coerce_infinite whole infinite]
    by_cases negative : v.negative
    · have below := sign.1 negative
      rw [if_pos negative]
      refine ⟨_, low, Int.le_refl _, .inl ⟨infinite, ?_⟩, by omega⟩
      rw [if_pos negative]
      omega
    · have above := sign.not.1 negative
      rw [if_neg negative]
      refine ⟨top, high, by omega, .inl ⟨infinite, ?_⟩, ?_⟩
      · rw [if_neg negative]
        omega
      · rw [wide, and_iff_left (by omega)]

theorem read_of_toInt? (whole : kind.isFloat = false) (found : (kind.coerce v).toInt? = some n) :
    kind.read v = .whole (if kind.least ≤ n ∧ n ≤ kind.greatest then n else 0) := by
  rw [← (Binary64.of_toInt? found).2.2]
  cases kind with
  | float | double => cases whole
  | int8 | int32 | index => rfl

/-- What is written and what is read of a number: the integer it stands for, or 0 if it overruns. -/
theorem read_clamped (whole : kind.isFloat = false) (number : v.isNaN = false) :
    ∃ n, kind.ClampsTo v n ∧ kind.encode (kind.coerce v) = littleEndian kind.size n ∧
      kind.read v = .whole (if kind.Overruns v then 0 else n) ∧
      (kind.Overruns v → n = kind.greatest) := by
  obtain ⟨k, found, atLeast, clamps, beyond⟩ := coerce_clamps whole number
  have order := kind.zero_within
  refine ⟨_, clamps, ?_, ?_, fun overruns => ?_⟩
  · rw [encode_of_toInt? whole found, max_eq_right (le_min (by omega) atLeast)]
  · rw [read_of_toInt? whole found]
    congr 1
    split
    next inside => rw [if_neg (beyond.not.1 (by omega)), min_eq_right inside.2]
    next outside => rw [if_pos (beyond.1 (by omega))]
  · exact min_eq_left (Int.le_of_lt (beyond.2 overruns))

theorem encode_eq_read_iff (whole : kind.isFloat = false) (number : v.isNaN = false)
    (shows : kind.read v = .whole m) :
    kind.encode (kind.coerce v) = littleEndian kind.size m ↔ ¬ kind.Overruns v := by
  obtain ⟨n, -, written, read, top⟩ := read_clamped whole number
  obtain rfl := Scalar.whole.inj (shows.symm.trans read)
  rw [written]
  split
  next overruns =>
    obtain rfl := overruns.1
    rw [top overruns]
    exact iff_of_false (by decide) (not_not.2 overruns)
  next within => exact iff_of_true rfl within

theorem read_mono_iff (whole : kind.isFloat = false) (below : v.ble w)
    (first : kind.read v = .whole m) (second : kind.read w = .whole n) :
    m ≤ n ↔ ¬ (kind.Overruns w ∧ 0 < m) := by
  obtain ⟨⟨number, number'⟩, ranks⟩ : (v.isNaN = false ∧ w.isNaN = false) ∧ v.rank ≤ w.rank := by
    simpa [Binary64.ble] using below
  obtain ⟨i, clamps, -, read, -⟩ := read_clamped whole number
  obtain ⟨j, clamps', -, read', -⟩ := read_clamped whole number'
  obtain rfl := Scalar.whole.inj (first.symm.trans read)
  obtain rfl := Scalar.whole.inj (second.symm.trans read')
  have order := clamps.mono clamps' below
  have later : kind.Overruns v → kind.Overruns w := by
    rw [overruns_iff number, overruns_iff number']
    exact fun overruns => ⟨overruns.1, Int.le_trans overruns.2 ranks⟩
  by_cases overruns : kind.Overruns w
  · rw [if_pos overruns]
    simp [overruns]
  · have before := mt later overruns
    simp [overruns, before, order]

end ElementKind

/-- The integer of a scalar that is one. -/
def Scalar.integer : Scalar → Int
  | .whole n => n
  | .real _ => 0

namespace Value

variable {a : Value} {kind : ElementKind}

theorem encodeValue_eq_scalars_iff (wellFormed : a.WellFormed) (same : a.ty.kind = kind)
    (whole : kind.isFloat = false) :
    ∃ integers : Array Int, a.scalars kind = .ok (integers.map .whole) ∧
      (Bundle.encodeValue a = integers.toList.flatMap (ElementKind.littleEndian kind.size) ↔
        ∀ x ∈ a.data, ¬ kind.Overruns x) := by
  subst same
  have reads (x : Binary64) : a.ty.kind.read x = .whole (a.ty.kind.read x).integer := by
    generalize a.ty.kind = kind at whole
    cases kind with
    | float | double => cases whole
    | int8 | int32 | index => rfl
  refine ⟨a.data.map fun x => (a.ty.kind.read x).integer, ?_, ?_⟩
  · rw [scalars, if_pos rfl, Array.map_map]
    exact congrArg Except.ok (Array.map_congr_left fun x _ => reads x)
  · rw [Bundle.encodeValue, Array.toList_map, List.flatMap_map, flatMap_eq_flatMap_iff (by simp)]
    simp only [Array.mem_toList_iff]
    refine forall₂_congr fun x member => ?_
    have stored := wellFormed.coerced x member
    obtain ⟨n, found, -⟩ := ElementKind.toInt?_of_coerced whole stored
    have number := Binary64.isNaN_of_isFinite (Binary64.of_toInt? found).1
    rw [← ElementKind.encode_eq_read_iff whole number (reads x), stored]

end Value

/-- On every integer kind and for every number that is no NaN there is one integer that the number
stands for: the nearest one, held between the kind's bounds. It is the integer whose bytes are
written, and it is read too, unless the number is an index from `2 ^ 64` on, which is read as 0.
So what is read grows with the number but for such an index, and a tensor is read as it is written
exactly when it holds none. -/
theorem reading_saturates_iff {kind : ElementKind} (whole : kind.isFloat = false) :
    (∀ v : Binary64, v.isNaN = false → ∃ n, kind.ClampsTo v n ∧
      (∀ m, kind.ClampsTo v m → m = n) ∧
      kind.encode (kind.coerce v) = ElementKind.littleEndian kind.size n ∧
      (kind.read v = .whole n ↔ ¬ kind.Overruns v) ∧
      (kind.Overruns v → kind.read v = .whole 0)) ∧
    (∀ (v : Binary64) (m : Int), v.isNaN = false → kind.read v = .whole m →
      (kind.encode (kind.coerce v) = ElementKind.littleEndian kind.size m ↔
        ¬ kind.Overruns v)) ∧
    (∀ (v w : Binary64) (m n : Int), v.ble w → kind.read v = .whole m → kind.read w = .whole n →
      (m ≤ n ↔ ¬ (kind.Overruns w ∧ 0 < m))) ∧
    ∀ a : Value, a.WellFormed → a.ty.kind = kind →
      ∃ integers : Array Int, a.scalars kind = .ok (integers.map .whole) ∧
        (Bundle.encodeValue a = integers.toList.flatMap (ElementKind.littleEndian kind.size) ↔
          ∀ x ∈ a.data, ¬ kind.Overruns x) := by
  refine ⟨fun v number => ?_, fun v m number shows => ?_, fun v w m n below first second => ?_,
    fun a wellFormed same => ?_⟩
  · obtain ⟨n, clamps, written, read, top⟩ := ElementKind.read_clamped whole number
    refine ⟨n, clamps, fun m other => other.unique clamps number, written, ?_, fun overruns => ?_⟩
    · rw [read]
      split
      next overruns =>
        refine iff_of_false ?_ (not_not.2 overruns)
        rw [top overruns, overruns.1]
        decide
      next within => exact iff_of_true rfl within
    · rw [read, if_pos overruns]
  · exact ElementKind.encode_eq_read_iff whole number shows
  · exact ElementKind.read_mono_iff whole below first second
  · exact a.encodeValue_eq_scalars_iff wellFormed same whole

/-- Two and a half goes away from zero. -/
theorem reading_saturates_iff_half :
    ElementKind.index.isFloat = false ∧ (Binary64.ofRatio false 5 2).isNaN = false ∧
      ElementKind.index.ClampsTo (.ofRatio false 5 2) 3 := by
  have stands (v : Binary64) (number : v.isNaN = false) (shows : ElementKind.index.read v = .whole 3)
      (small : ¬ ElementKind.index.Overruns v) : ElementKind.index.ClampsTo v 3 := by
    obtain ⟨clamped, -⟩ := reading_saturates_iff (rfl : ElementKind.index.isFloat = false)
    obtain ⟨n, clamps, -, -, read, -⟩ := clamped v number
    obtain rfl := Scalar.whole.inj (shows.symm.trans (read.2 small))
    exact clamps
  have number : (Binary64.ofRatio false 5 2).isNaN = false := by decide +kernel
  exact ⟨rfl, number, stands _ number (by decide +kernel) (by decide +kernel)⟩

/-- The number `2 ^ 64` stands for the greatest index and is written as it, but is read as 0, below
what one is read as. -/
theorem index_bound_reads_zero :
    let v := Binary64.ofInt 0x10000000000000000
    v.isNaN = false ∧ ElementKind.index.ClampsTo v 0xffffffffffffffff ∧
      ElementKind.index.encode (ElementKind.index.coerce v) =
        ElementKind.littleEndian 8 0xffffffffffffffff ∧
      ElementKind.index.read v = .whole 0 ∧
      ElementKind.littleEndian 8 0 ≠ ElementKind.littleEndian 8 0xffffffffffffffff ∧
      Binary64.one.ble v = true ∧ ElementKind.index.read .one = .whole 1 := by
  refine ⟨by decide +kernel, ?_, by decide +kernel, by decide +kernel, by decide, by decide +kernel,
    by decide +kernel⟩
  have exact : (Binary64.ofInt 0x10000000000000000).toInt? = some 0x10000000000000000 := by
    decide +kernel
  exact .inr ⟨by decide +kernel, _, Binary64.nearest_of_toInt? exact, by decide⟩

end TensorGraph
