import TensorGraph.Proofs.Number.Zeros

/-!
Rounding keeps order: of two quotients the smaller one never gets the larger code. What lies between
two numbers is therefore rounded to something between them, which settles results that are too long
to be held exactly.
-/

namespace TensorGraph

namespace Format

variable {n d n' d' : Nat}

theorem div_le_div_of_cross (positive : 0 < d) (positive' : 0 < d') (below : n * d' ≤ n' * d) :
    n / d ≤ n' / d' := by
  rw [Nat.le_div_iff_mul_le positive']
  refine Nat.le_of_mul_le_mul_right ?_ positive
  calc n / d * d' * d = n / d * d * d' := Nat.mul_right_comm ..
    _ ≤ n * d' := Nat.mul_le_mul_right _ (Nat.div_mul_le_self n d)
    _ ≤ n' * d := below

theorem le_nearest (n d : Nat) : n / d ≤ nearest n d := by
  simp only [nearest]
  split
  · exact Nat.le_refl _
  · split <;> omega

theorem nearest_le (n d : Nat) : nearest n d ≤ n / d + 1 := by
  simp only [nearest]
  split
  · omega
  · split <;> omega

/-- Quotients with one integer part are nearest to the one end or the other as their rests are. -/
theorem nearest_mono (positive : 0 < d) (positive' : 0 < d') (below : n * d' ≤ n' * d) :
    nearest n d ≤ nearest n' d' := by
  rcases Nat.lt_or_eq_of_le (div_le_div_of_cross positive positive' below) with apart | level
  · calc nearest n d ≤ n / d + 1 := nearest_le n d
      _ ≤ n' / d' := apart
      _ ≤ nearest n' d' := le_nearest n' d'
  · have split := Nat.div_add_mod n d
    have split' := Nat.div_add_mod n' d'
    have rests : n % d * d' ≤ n' % d' * d := by
      rw [← split, ← split', level, Nat.add_mul, Nat.add_mul] at below
      have whole : d' * (n' / d') * d = d * (n' / d') * d' := by ac_rfl
      omega
    -- A rest is half its divisor or more if the smaller one is.
    have half : d ≤ 2 * (n % d) → d' ≤ 2 * (n' % d') := fun reached => by
      refine Nat.le_of_mul_le_mul_right ?_ positive
      calc d' * d = d * d' := Nat.mul_comm ..
        _ ≤ 2 * (n % d) * d' := Nat.mul_le_mul_right _ reached
        _ = 2 * (n % d * d') := Nat.mul_assoc ..
        _ ≤ 2 * (n' % d' * d) := Nat.mul_le_mul_left _ rests
        _ = 2 * (n' % d') * d := (Nat.mul_assoc ..).symm
    have past : d < 2 * (n % d) → d' < 2 * (n' % d') := fun beyond => by
      refine Nat.lt_of_mul_lt_mul_right (a := d) ?_
      calc d' * d = d * d' := Nat.mul_comm ..
        _ < 2 * (n % d) * d' := Nat.mul_lt_mul_of_pos_right beyond positive'
        _ = 2 * (n % d * d') := Nat.mul_assoc ..
        _ ≤ 2 * (n' % d' * d) := Nat.mul_le_mul_left _ rests
        _ = 2 * (n' % d') * d := (Nat.mul_assoc ..).symm
    simp only [nearest, level]
    split
    · split <;> [skip; split] <;> omega
    · split <;> split <;> [skip; split; skip; split] <;> omega

theorem nearest_le_of_shift (F : Format) {s : Nat}
    (shift : (n / d).log2 - F.fractionBits ≤ s) : nearest n (d <<< s) ≤ 2 * F.hidden := by
  have short : n / d < 2 * F.hidden * 2 ^ s := by
    calc n / d < 2 ^ ((n / d).log2 + 1) := Nat.lt_log2_self
      _ ≤ 2 ^ (F.fractionBits + s + 1) := Nat.pow_le_pow_right (by decide) (by omega)
      _ = 2 * F.hidden * 2 ^ s := by
        rw [hidden, Nat.one_shiftLeft, Nat.pow_succ, Nat.pow_add]
        ac_rfl
  have quotient : n / (d <<< s) < 2 * F.hidden := by
    rw [Nat.shiftLeft_eq, ← Nat.div_div_eq_div_mul]
    exact (Nat.div_lt_iff_lt_mul (Nat.two_pow_pos s)).2 short
  exact Nat.le_trans (nearest_le _ _) quotient

theorem hidden_le_nearest (F : Format) {s : Nat} (shifted : 0 < s)
    (shift : (n / d).log2 - F.fractionBits = s) : F.hidden ≤ nearest n (d <<< s) := by
  have nonzero : n / d ≠ 0 := by
    intro zero
    rw [zero, Nat.log2_zero] at shift
    omega
  have long : F.hidden * 2 ^ s ≤ n / d := by
    calc F.hidden * 2 ^ s = 2 ^ (n / d).log2 := by
          rw [hidden, Nat.one_shiftLeft, ← Nat.pow_add]
          congr 1
          omega
      _ ≤ n / d := Nat.log2_self_le nonzero
  refine Nat.le_trans ?_ (le_nearest _ _)
  rw [Nat.shiftLeft_eq, ← Nat.div_div_eq_div_mul]
  exact (Nat.le_div_iff_mul_le (Nat.two_pow_pos s)).2 long

/-- A larger quotient never has the smaller code. -/
theorem round_mono (F : Format) (positive : 0 < d) (positive' : 0 < d')
    (below : n * d' ≤ n' * d) : F.round n d ≤ F.round n' d' := by
  have quotients := div_le_div_of_cross positive positive' below
  have logs : (n / d).log2 ≤ (n' / d').log2 := by
    by_cases zero : n / d = 0
    · rw [zero, Nat.log2_zero]
      exact Nat.zero_le _
    · have nonzero : n' / d' ≠ 0 :=
        Nat.ne_of_gt (Nat.lt_of_lt_of_le (Nat.pos_of_ne_zero zero) quotients)
      exact (Nat.le_log2 nonzero).2 (Nat.le_trans (Nat.log2_self_le zero) quotients)
  have shifts : (n / d).log2 - F.fractionBits ≤ (n' / d').log2 - F.fractionBits := by omega
  simp only [round]
  generalize shift : (n / d).log2 - F.fractionBits = s at shifts
  generalize shift' : (n' / d').log2 - F.fractionBits = s' at shifts
  refine Nat.le_min.2 ⟨Nat.le_trans (Nat.min_le_left _ _) ?_, Nat.min_le_right _ _⟩
  rcases Nat.lt_or_eq_of_le shifts with later | rfl
  · -- The significand carried over at most once, and the exponent field of the other is larger.
    have significand := F.nearest_le_of_shift (Nat.le_of_eq shift)
    have significand' := F.hidden_le_nearest (Nat.zero_lt_of_lt later) shift'
    have fields := Nat.mul_le_mul_right F.hidden later
    rw [Nat.succ_mul] at fields
    omega
  · refine Nat.add_le_add_left (nearest_mono ?_ ?_ ?_) _
    · rw [Nat.shiftLeft_eq]
      exact Nat.mul_pos positive (Nat.two_pow_pos s)
    · rw [Nat.shiftLeft_eq]
      exact Nat.mul_pos positive' (Nat.two_pow_pos s)
    · rw [Nat.shiftLeft_eq, Nat.shiftLeft_eq, ← Nat.mul_assoc, ← Nat.mul_assoc]
      exact Nat.mul_le_mul_right _ below

theorem round_congr (F : Format) (positive : 0 < d) (positive' : 0 < d')
    (same : n * d' = n' * d) : F.round n d = F.round n' d' :=
  Nat.le_antisymm (F.round_mono positive positive' (Nat.le_of_eq same))
    (F.round_mono positive' positive (Nat.le_of_eq same.symm))

end Format

theorem Binary64.units_rounded_between {low high n d : Nat} (negative : Bool) (positive : 0 < d)
    (held : Format.binary64.Represents low) (held' : Format.binary64.Represents high)
    (above : low * d ≤ n) (below : n ≤ high * d) :
    (rounded negative n d).isFinite ∧ low ≤ (rounded negative n d).units ∧
      (rounded negative n d).units ≤ high := by
  have bottom := (rounded_exact negative held).2
  obtain ⟨finite, top⟩ := rounded_exact negative held'
  have first : Format.binary64.round low 1 ≤ Format.binary64.round n d :=
    Format.round_mono _ Nat.one_pos positive (by rwa [Nat.mul_one])
  have second : Format.binary64.round n d ≤ Format.binary64.round high 1 :=
    Format.round_mono _ positive Nat.one_pos (by rwa [Nat.mul_one])
  have order := Format.binary64.units_strictMono.monotone
  simp only [isFinite, units, rounded_magnitude, decide_eq_true_eq] at bottom top finite ⊢
  refine ⟨Nat.lt_of_le_of_lt second finite, ?_, ?_⟩
  · rw [← bottom]
    exact order first
  · rw [← top]
    exact order second

end TensorGraph
