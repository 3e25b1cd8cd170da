import TensorGraph.Proofs.Number.Monotone

/-!
Running sums. A sum that starts at positive zero never becomes negative zero, and a NaN in it is one
that arithmetic has made. Adding a zero of either sign to such a sum changes nothing, so terms that
are zero may be left out.
-/

namespace TensorGraph

namespace Format

theorem round_pos (F : Format) {n : Nat} (positive : 0 < n) (wide : 1 < F.hidden)
    (finite : 1 ≤ F.infinity) : 0 < F.round n 1 := by
  have least : F.round 1 1 = 1 := by
    simpa [units_of_lt wide] using round_units finite
  have order : F.round 1 1 ≤ F.round n 1 := by
    apply round_mono F Nat.one_pos Nat.one_pos
    omega
  omega

end Format

namespace Binary64

variable {s t x y : Binary64}

theorem isNaN_rounded (negative : Bool) (n d : Nat) : (rounded negative n d).isNaN = false := by
  simp [isNaN, Format.round_le_infinity]

theorem isZero_rounded (negative : Bool) {n : Nat} (positive : 0 < n) :
    (rounded negative n 1).isZero = false := by
  have code := Format.binary64.round_pos positive (by decide) (by decide)
  simp only [isZero, rounded_magnitude, decide_eq_false_iff_not]
  omega

theorem magnitude_quiet (x : Binary64) :
    x.quiet.magnitude.toNat = x.magnitude.toNat ||| Format.binary64.quietBit :=
  magnitude_ofCode_or x.magnitude.isLt (by decide) _

@[simp] theorem quiet_quiet (x : Binary64) : x.quiet.quiet = x.quiet := by
  apply ext_magnitude
  · rfl
  · rw [magnitude_quiet, magnitude_quiet, Nat.or_assoc, Nat.or_self]

theorem isNaN_quiet (nan : x.isNaN) : x.quiet.isNaN := by
  have larger : x.magnitude.toNat ≤ x.quiet.magnitude.toNat := by
    rw [magnitude_quiet]
    exact Nat.left_le_or
  simp only [isNaN, decide_eq_true_eq] at nan ⊢
  omega

theorem isZero_of_isNaN (nan : x.isNaN) : x.isZero = false := by
  simp only [isNaN, isZero, decide_eq_true_eq, decide_eq_false_iff_not] at nan ⊢
  omega

theorem isZero_of_isInfinite (infinite : x.isInfinite) : x.isZero = false := by
  have positive : 0 < Format.binary64.infinity := by decide
  simp only [isInfinite, isZero, decide_eq_true_eq, decide_eq_false_iff_not] at infinite ⊢
  omega

theorem isNaN_of_isInfinite (infinite : x.isInfinite) : x.isNaN = false := by
  simp only [isInfinite, isNaN, decide_eq_true_eq, decide_eq_false_iff_not] at infinite ⊢
  omega

theorem isFinite_of_isZero (blank : x.isZero) : x.isFinite := by
  have positive : 0 < Format.binary64.infinity := by decide
  simp only [isZero, isFinite, decide_eq_true_eq] at blank ⊢
  omega

theorem number_cases (x : Binary64) : x.isFinite ∨ x.isInfinite ∨ x.isNaN := by
  simp only [isFinite, isInfinite, isNaN, decide_eq_true_eq]
  omega

theorem value_eq_zero_iff : x.value = 0 ↔ x.isZero := by
  have start : (zero false).value = 0 := by decide
  have above := value_le_value (x := zero false) (y := x)
  have below := value_le_value (x := x) (y := zero false)
  rw [start, rank_zero] at above below
  rw [isZero_iff]
  omega

theorem isNaN_mul (finite : x.isFinite) (finite' : y.isFinite) : (x * y).isNaN = false := by
  rw [mul_of_finite finite finite']
  exact isNaN_rounded _ _ _

theorem mul_comm_of_finite (finite : x.isFinite) (finite' : y.isFinite) : x * y = y * x := by
  rw [mul_of_finite finite finite', mul_of_finite finite' finite, Nat.mul_comm, bne_comm]

theorem isZero_mul (finite : x.isFinite) (finite' : y.isFinite) (blank : x.isZero) :
    (x * y).isZero := by
  rw [mul_of_finite finite finite', units_of_rank (isZero_iff.1 blank), Nat.zero_mul]
  exact isZero_iff.2 (rank_rounded_zero _ _)

theorem add_of_isNaN (nan : s.isNaN) (t : Binary64) : s + t = s.quiet := by
  change s.add t = s.quiet
  simp [add, nan]

theorem add_of_isInfinite (infinite : s.isInfinite) (number : t.isNaN = false) :
    s + t = if t.isInfinite && s.negative != t.negative then invalid else s := by
  change s.add t = _
  simp [add, isNaN_of_isInfinite infinite, number, infinite]

theorem add_isInfinite (finite : s.isFinite) (infinite : t.isInfinite) : s + t = t := by
  change s.add t = t
  simp [add, isNaN_of_isFinite finite, isInfinite_of_isFinite finite,
    isNaN_of_isInfinite infinite, infinite]

/-- What holds of a sum that starts at positive zero, however far it has got. -/
structure Running (s : Binary64) : Prop where
  positive : s.isZero → s.negative = false
  quiet : s.isNaN → s.quiet = s

theorem Running.zero : Running (zero false) :=
  ⟨fun _ => rfl, fun nan => absurd nan (by decide)⟩

theorem Running.of_infinite (infinite : s.isInfinite) : Running s :=
  ⟨fun blank => by simp [isZero_of_isInfinite infinite] at blank,
    fun nan => by simp [isNaN_of_isInfinite infinite] at nan⟩

theorem Running.of_quiet (nan : s.isNaN) (quiet : s.quiet = s) : Running s :=
  ⟨fun blank => by simp [isZero_of_isNaN nan] at blank, fun _ => quiet⟩

/-- One more term, unless it is a NaN, makes a running sum of a running sum. -/
theorem Running.add (running : Running s) (number : t.isNaN = false) : Running (s + t) := by
  rcases s.number_cases with finite | infinite | nan
  · rcases t.number_cases with finite' | infinite' | nan'
    · rw [add_of_finite finite finite']
      split
      next cancels =>
        -- two negative zeros are not among the ways to cancel
        refine ⟨fun _ => ?_, fun nan => ?_⟩
        · cases sign : s.negative with
          | false => rfl
          | true =>
            cases sign' : t.negative with
            | false => rfl
            | true =>
              have blank : s.value = 0 := by
                simp only [value, sign, sign', if_true] at cancels ⊢
                omega
              simpa [sign] using running.positive (value_eq_zero_iff.1 blank)
        · have number : (Binary64.zero (s.negative && t.negative)).isNaN = false := by
            cases s.negative <;> cases t.negative <;> decide
          simp [number] at nan
      next rest =>
        refine ⟨fun blank => ?_, fun nan => ?_⟩
        · rw [isZero_rounded _ (Int.natAbs_pos.2 rest)] at blank
          cases blank
        · rw [isNaN_rounded] at nan
          cases nan
    · rw [add_isInfinite finite infinite']
      exact .of_infinite infinite'
    · rw [number] at nan'
      cases nan'
  · rw [add_of_isInfinite infinite number]
    split
    · exact .of_quiet (by decide) (by decide)
    · exact running
  · rw [add_of_isNaN nan]
    exact .of_quiet (isNaN_quiet nan) (quiet_quiet s)

theorem Running.add_isZero (running : Running s) (blank : t.isZero) : s + t = s := by
  have finite' := isFinite_of_isZero blank
  rcases s.number_cases with finite | infinite | nan
  · have same : s.value + t.value = s.value := by
      simp [value_eq_zero_iff.2 blank]
    rw [add_of_finite finite finite', same]
    split
    next empty =>
      have level := value_eq_zero_iff.1 empty
      have plain := running.positive level
      simpa [plain] using (eq_zero_of_rank (isZero_iff.1 level)).symm
    next rest =>
      have sign : decide (s.value < 0) = s.negative := by
        rw [value] at rest ⊢
        cases negative : s.negative with
        | true =>
          simp only [negative, if_true, decide_eq_true_eq] at rest ⊢
          omega
        | false => simp
      rw [sign, natAbs_value, rounded_units finite]
  · simp [add_of_isInfinite infinite (isNaN_of_isFinite finite'), isInfinite_of_isFinite finite']
  · rw [add_of_isNaN nan, running.quiet nan]

/-- The sum of `count` terms from left to right, starting at positive zero. -/
def sum (count : Nat) (term : Nat → Binary64) : Binary64 :=
  (List.range count).foldl (fun s p => s + term p) (zero false)

theorem sum_succ (count : Nat) (term : Nat → Binary64) :
    sum (count + 1) term = sum count term + term count := by
  simp only [sum, List.range_succ, List.foldl_append, List.foldl_cons, List.foldl_nil]

theorem sum_congr {count : Nat} {term term' : Nat → Binary64}
    (same : ∀ p < count, term p = term' p) : sum count term = sum count term' := by
  induction count with
  | zero => simp only [sum, List.range_zero, List.foldl_nil]
  | succ count ih =>
    rw [sum_succ, sum_succ, ih fun p before => same p (Nat.lt_succ_of_lt before),
      same count (Nat.lt_succ_self count)]

theorem running_sum {count : Nat} {term : Nat → Binary64}
    (numbers : ∀ p < count, (term p).isNaN = false) : Running (sum count term) := by
  induction count with
  | zero => exact .zero
  | succ count ih =>
    rw [sum_succ]
    have before := ih fun p inside => numbers p (Nat.lt_succ_of_lt inside)
    exact before.add (numbers count (Nat.lt_succ_self count))

end Binary64
end TensorGraph
