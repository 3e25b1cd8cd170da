import Mathlib.Order.MinMax
import TensorGraph.Proofs.Number.Integers
import TensorGraph.Proofs.Run.Integers

/-!
Arithmetic on tensors of narrow integers. Results are computed as numbers, rounded and coerced, and
still are read as what integer arithmetic gives, held between the bounds of the kind.
-/

namespace TensorGraph

namespace ElementKind

variable {kind : ElementKind} {x : Binary64} {n : Int}

/-- An integer held between the bounds of a kind. -/
def clamp (kind : ElementKind) (n : Int) : Int := max kind.least (min kind.greatest n)

@[simp] theorem read_coerce (kind : ElementKind) (x : Binary64) :
    kind.read (kind.coerce x) = kind.read x := by
  simp [read]

/-- The number nearest to an integer is read as that integer, held between the bounds. -/
theorem Narrow.read_ofInt (narrow : kind.Narrow) (n : Int) :
    kind.read (.ofInt n) = .whole (kind.clamp n) := by
  have short (k : Int) (above : kind.least ≤ k) (below : k ≤ kind.greatest) :
      kind.ClampsTo (.ofInt k) k := by
    have exact : (Binary64.ofInt k).toInt? = some k := by
      refine Binary64.toInt?_ofInt ?_
      have wide : Format.binary64.hidden = 0x10000000000000 := by decide
      rcases narrow with rfl | rfl <;> simp only [least, greatest] at above below <;> omega
    exact .inr ⟨(Binary64.of_toInt? exact).1, k, Binary64.nearest_of_toInt? exact, by omega⟩
  have order := kind.zero_within
  have ordered {i j : Int} (le : i ≤ j) : (Binary64.ofInt i).ble (.ofInt j) := by
    simpa [Binary64.ble, Binary64.isNaN_ofInt] using Binary64.rank_ofInt_mono le
  obtain ⟨k, clamps, -, reads, -⟩ := read_clamped narrow.whole (Binary64.isNaN_ofInt n)
  have fits : ¬ kind.Overruns (.ofInt n) := fun overruns => by
    rcases narrow with rfl | rfl <;> cases overruns.1
  have within := clamps.within
  rw [reads, if_neg fits, clamp]
  congr 1
  -- Beyond a bound the number is beyond the bound's, and what it stands for is held there.
  rcases Int.lt_or_le n kind.least with below | above
  · have := clamps.mono (short kind.least (Int.le_refl _) (by omega)) (ordered (Int.le_of_lt below))
    omega
  · rcases Int.lt_or_le kind.greatest n with beyond | below
    · have := (short kind.greatest (by omega) (Int.le_refl _)).mono clamps
        (ordered (Int.le_of_lt beyond))
      omega
    · have := clamps.unique (short n above below) (Binary64.isNaN_ofInt n)
      omega

theorem Narrow.read_eq (narrow : kind.Narrow) (rank : x.rank = (Binary64.ofInt n).rank) :
    kind.read x = .whole (kind.clamp n) := by
  rw [← read_coerce, read_coerce_congr narrow.whole rank, read_coerce, narrow.read_ofInt]

theorem Narrow.integer (narrow : kind.Narrow) (stored : kind.coerce x = x) :
    ∃ n, x.toInt? = some n ∧ kind.read x = .whole n ∧ n.natAbs ≤ 0x80000000 := by
  obtain ⟨n, found, reads⟩ := narrow.read stored
  have held := narrow.read_eq (Binary64.rank_ofInt found).symm
  rw [reads, Scalar.whole.injEq, clamp] at held
  refine ⟨n, found, reads, ?_⟩
  rcases narrow with rfl | rfl <;> simp only [least, greatest] at held <;> omega

end ElementKind

/-- What an operation gives on integers. Quotients are cut off towards zero. -/
def Binary.onIntegers : Binary → Int → Int → Int
  | add, m, n => m + n
  | sub, m, n => m - n
  | mul, m, n => m * n
  | div, m, n => m.tdiv n
  | max, m, n => Max.max m n
  | min, m, n => Min.min m n

/-- On numbers that are integers an operation gives the number nearest to the integer result, up to
the sign of a zero. -/
theorem Binary.rank_applyAt (f : Binary) {kind : ElementKind} (whole : kind.isFloat = false)
    {x y : Binary64} {m n : Int} (found : x.toInt? = some m) (found' : y.toInt? = some n)
    (short : m.natAbs + n.natAbs ≤ Format.binary64.hidden) (defined : f = .div → n ≠ 0) :
    (f.applyAt kind x y).rank = (Binary64.ofInt (f.onIntegers m n)).rank := by
  have mono : Monotone fun n => (Binary64.ofInt n).rank := fun _ _ => Binary64.rank_ofInt_mono
  have number := Binary64.isNaN_of_isFinite (Binary64.of_toInt? found).1
  have number' := Binary64.isNaN_of_isFinite (Binary64.of_toInt? found').1
  cases f with
  | add => exact Binary64.rank_add found found'
  | sub => exact Binary64.rank_sub found found'
  | mul => exact Binary64.rank_mul found found'
  | div =>
    rw [applyAt, whole, if_neg Bool.false_ne_true]
    exact Binary64.rank_truncate_div found found' (defined rfl) short
  | max =>
    refine (Binary64.rank_max number number').trans ?_
    rw [← Binary64.rank_ofInt found, ← Binary64.rank_ofInt found']
    exact (mono.map_max (a := m)).symm
  | min =>
    refine (Binary64.rank_min number number').trans ?_
    rw [← Binary64.rank_ofInt found, ← Binary64.rank_ofInt found']
    exact (mono.map_min (a := m)).symm

namespace ElementKind.Narrow

variable {kind : ElementKind} {x y : Binary64} {m n : Int}

theorem read_applyAt (narrow : kind.Narrow) (f : Binary) (stored : kind.coerce x = x)
    (stored' : kind.coerce y = y) (reads : kind.read x = .whole m) (reads' : kind.read y = .whole n)
    (defined : f = .div → n ≠ 0) :
    kind.read (kind.coerce (f.applyAt kind x y)) = .whole (kind.clamp (f.onIntegers m n)) := by
  obtain ⟨_, found, same, short⟩ := narrow.integer stored
  obtain ⟨_, found', same', short'⟩ := narrow.integer stored'
  obtain rfl := Scalar.whole.inj (same.symm.trans reads)
  obtain rfl := Scalar.whole.inj (same'.symm.trans reads')
  have wide : Format.binary64.hidden = 0x10000000000000 := by decide
  rw [read_coerce]
  exact narrow.read_eq (f.rank_applyAt narrow.whole found found' (by omega) defined)

theorem read_neg (narrow : kind.Narrow) (stored : kind.coerce x = x)
    (reads : kind.read x = .whole m) :
    kind.read (kind.coerce (Unary.neg.apply x)) = .whole (kind.clamp (-m)) := by
  obtain ⟨_, found, same, -⟩ := narrow.integer stored
  obtain rfl := Scalar.whole.inj (same.symm.trans reads)
  rw [read_coerce]
  exact narrow.read_eq (Binary64.rank_ofInt (Binary64.toInt?_neg found)).symm

theorem read_relu (narrow : kind.Narrow) (stored : kind.coerce x = x)
    (reads : kind.read x = .whole m) :
    kind.read (kind.coerce (Unary.relu.apply x)) = .whole (kind.clamp (max m 0)) := by
  have zero : (Binary64.zero false).toInt? = some 0 := by decide +kernel
  obtain ⟨_, found, same, -⟩ := narrow.integer stored
  obtain rfl := Scalar.whole.inj (same.symm.trans reads)
  rw [read_coerce]
  exact narrow.read_eq (Binary.max.rank_applyAt narrow.whole found zero (by
    obtain ⟨_, found', -, short⟩ := narrow.integer stored
    obtain rfl := Option.some.inj (found.symm.trans found')
    have wide : Format.binary64.hidden = 0x10000000000000 := by decide
    omega) nofun)

end ElementKind.Narrow

namespace Value

variable {v a b : Value} {ms ns : Array Int}

/-- The value is read as these integers. -/
def Shows (v : Value) (ns : Array Int) : Prop := v.scalars v.ty.kind = .ok (ns.map .whole)

instance (v : Value) (ns : Array Int) : Decidable (v.Shows ns) :=
  inferInstanceAs (Decidable (_ = _))

theorem shows_iff : v.Shows ns ↔ ∀ i : Nat, v.data[i]?.map v.ty.kind.read = ns[i]?.map .whole := by
  simp only [Shows, scalars, if_pos, Except.ok.injEq, ← Array.getElem?_map]
  exact ⟨fun same i => congrArg (·[i]?) same, fun each => Array.ext_getElem? each⟩

theorem Shows.unique (left : v.Shows ms) (right : v.Shows ns) : ms = ns :=
  Array.ext_getElem? fun i => Option.map_injective (fun _ _ => Scalar.whole.inj)
    ((shows_iff.1 left i).symm.trans (shows_iff.1 right i))

theorem Shows.size (shows : v.Shows ns) (wellFormed : v.WellFormed) : ns.size = v.ty.count := by
  have sizes := congrArg Array.size (Except.ok.inj ((if_pos rfl).symm.trans shows))
  rwa [Array.size_map, Array.size_map, wellFormed.size_eq, eq_comm] at sizes

theorem exists_shows (whole : v.ty.kind.isFloat = false) : ∃ ns, v.Shows ns := by
  refine ⟨v.data.map fun x => (v.ty.kind.read x).integer, shows_iff.2 fun i => ?_⟩
  rw [Array.getElem?_map, Option.map_map]
  congr 1
  funext x
  generalize v.ty.kind = kind at whole
  cases kind with
  | float | double => cases whole
  | int8 | int32 | index => rfl

theorem Shows.element (shows : v.Shows ns) (wellFormed : v.WellFormed) {i : Nat} {n : Int}
    (found : ns[i]? = some n) :
    ∃ x, v.data[i]? = some x ∧ v.ty.kind.coerce x = x ∧ v.ty.kind.read x = .whole n := by
  have inside : i < v.ty.count := by
    rw [← shows.size wellFormed]
    exact (Array.getElem?_eq_some_iff.1 found).1
  obtain ⟨x, here, stored⟩ := wellFormed.element inside
  have reads := shows_iff.1 shows i
  rw [here, found] at reads
  exact ⟨x, here, stored, Option.some.inj reads⟩

/-- At each position the integer result held between the bounds, unless it is divided by zero
there. -/
theorem binary_shows (narrow : a.ty.kind.Narrow) (wellFormed : a.WellFormed)
    (wellFormed' : b.WellFormed) (same : a.ty = b.ty) (shows : a.Shows ms) (shows' : b.Shows ns)
    (f : Binary) :
    ∃ r ks, binary f a b = .ok r ∧ r.ty = a.ty ∧ r.Shows ks ∧ ks.size = a.ty.count ∧
      ∀ (i : Nat) (m n : Int), ms[i]? = some m → ns[i]? = some n → (f = .div → n ≠ 0) →
        ks[i]? = some (a.ty.kind.clamp (f.onIntegers m n)) := by
  have made := binary_eq wellFormed wellFormed' same f
  generalize result : (⟨a.ty, _⟩ : Value) = r at made
  have type : r.ty = a.ty := by rw [← result]
  obtain ⟨ks, shown⟩ := r.exists_shows (type ▸ narrow.whole)
  refine ⟨r, ks, made, type, shown, type ▸ shown.size (wellFormed_of_binary made),
    fun i m n first second defined => ?_⟩
  obtain ⟨x, here, stored, reads⟩ := shows.element wellFormed first
  obtain ⟨y, here', stored', reads'⟩ := shows'.element wellFormed' second
  rw [← same] at stored' reads'
  have reading := shows_iff.1 shown i
  rw [type, ← result, Array.getElem?_zipWith, here, here'] at reading
  dsimp only [Option.map_some] at reading
  rw [narrow.read_applyAt f stored stored' reads reads' defined] at reading
  obtain ⟨k, found, whole⟩ := Option.map_eq_some_iff.1 reading.symm
  rw [found, Scalar.whole.inj whole]

theorem unary_shows (wellFormed : a.WellFormed) (shows : a.Shows ms)
    {f : Unary} {g : Int → Int}
    (each : ∀ x m, a.ty.kind.coerce x = x → a.ty.kind.read x = .whole m →
      a.ty.kind.read (a.ty.kind.coerce (f.apply x)) = .whole (a.ty.kind.clamp (g m))) :
    ∃ r, a.unary f = .ok r ∧ r.ty = a.ty ∧ r.Shows (ms.map fun m => a.ty.kind.clamp (g m)) := by
  refine ⟨_, unary_eq wellFormed f, rfl, shows_iff.2 fun i => ?_⟩
  rw [Array.getElem?_map, Array.getElem?_map, Option.map_map, Option.map_map]
  cases found : ms[i]? with
  | none =>
    have missing := shows_iff.1 shows i
    rw [found, Option.map_none, Option.map_eq_none_iff] at missing
    rw [missing]
    rfl
  | some m =>
    obtain ⟨x, here, stored, reads⟩ := shows.element wellFormed found
    rw [here]
    exact congrArg some (each x m stored reads)

end Value

namespace Workbench

/-- Whatever calls made them, two tensors of one type of 8-bit or 32-bit integers are read as
integers, and so is what is computed from them: at each position the exact sum, difference, product,
maximum or minimum held between the bounds of the kind, and the exact quotient cut off towards zero
where the divisor is not zero; the exact negation, and the greater of the integer and zero. -/
theorem integer_arithmetic_exact (calls : List Call) :
    let w := calls.foldl perform empty
    let σ := w.memory.store
    ∀ a b : Tensor, w.Knows a → w.Knows b → a.ty.kind.Narrow → a.ty = b.ty →
      ∃ ms ns, (σ.read a).Shows ms ∧ (σ.read b).Shows ns ∧
        ms.size = a.ty.count ∧ ns.size = a.ty.count ∧
        (∀ f : Binary, ∃ r ks, Value.binary f (σ.read a) (σ.read b) = .ok r ∧ r.ty = a.ty ∧
          r.Shows ks ∧ ks.size = a.ty.count ∧
          ∀ (i : Nat) (m n : Int), ms[i]? = some m → ns[i]? = some n → (f = .div → n ≠ 0) →
            ks[i]? = some (a.ty.kind.clamp (f.onIntegers m n))) ∧
        (∃ r, (σ.read a).unary .neg = .ok r ∧ r.ty = a.ty ∧
          r.Shows (ms.map fun m => a.ty.kind.clamp (-m))) ∧
        ∃ r, (σ.read a).unary .relu = .ok r ∧ r.ty = a.ty ∧
          r.Shows (ms.map fun m => a.ty.kind.clamp (max m 0)) := by
  intro w σ a b known known' narrow same
  have sound := (sound_empty.performAll calls).sound
  obtain ⟨wellFormed, type⟩ := (sound.knows known).read
  obtain ⟨wellFormed', type'⟩ := (sound.knows known').read
  rw [← type'] at same
  rw [← type] at narrow same ⊢
  obtain ⟨ms, shows⟩ := (σ.read a).exists_shows narrow.whole
  obtain ⟨ns, shows'⟩ := (σ.read b).exists_shows (same ▸ narrow.whole)
  exact ⟨ms, ns, shows, shows', shows.size wellFormed, same ▸ shows'.size wellFormed',
    fun f => Value.binary_shows narrow wellFormed wellFormed' same shows shows' f,
    Value.unary_shows wellFormed shows fun _ _ => narrow.read_neg,
    Value.unary_shows wellFormed shows fun _ _ => narrow.read_relu⟩

-- Operands at the edge of 32 bits.

namespace Edge

def made : List Call :=
  [.make (.scalars #[.whole (-0x80000000), .whole (-7), .whole 100000] (.vector 3) .int32),
    .make (.scalars #[.whole (-1), .whole 2, .whole 100000] (.vector 3) .int32)]

def store : Store := (made.foldl perform empty).memory.store

def left : Tensor := ⟨0, ⟨.int32, .vector 3⟩⟩
def right : Tensor := ⟨1, ⟨.int32, .vector 3⟩⟩

end Edge

open Edge

/-- The least integer divided by minus one and a product of 34 bits are held at the greatest, and a
quotient is cut off towards zero. -/
theorem integer_arithmetic_exact_edge :
    (made.foldl perform empty).Knows left ∧ (made.foldl perform empty).Knows right ∧
      left.ty.kind.Narrow ∧ left.ty = right.ty ∧
      (∃ r ks, Value.binary .div (store.read left) (store.read right) = .ok r ∧ r.Shows ks ∧
        ks[0]? = some 0x7fffffff ∧ ks[1]? = some (-3) ∧ ks[2]? = some 1) ∧
      ∃ r ks, Value.binary .mul (store.read left) (store.read right) = .ok r ∧ r.Shows ks ∧
        ks[0]? = some 0x7fffffff ∧ ks[1]? = some (-14) ∧ ks[2]? = some 0x7fffffff := by
  have known : (made.foldl perform empty).Knows left := .inl (by decide +kernel)
  have known' : (made.foldl perform empty).Knows right := .inl (by decide +kernel)
  have narrow : left.ty.kind.Narrow := .inr rfl
  obtain ⟨ms, ns, shows, shows', -, -, results, -, -⟩ :=
    integer_arithmetic_exact made left right known known' narrow rfl
  have dividend : (store.read left).Shows #[-0x80000000, -7, 100000] := by decide +kernel
  have divisor : (store.read right).Shows #[-1, 2, 100000] := by decide +kernel
  obtain rfl := shows.unique dividend
  obtain rfl := shows'.unique divisor
  obtain ⟨q, qs, quotient, -, read, -, each⟩ := results .div
  obtain ⟨p, ps, product, -, read', -, each'⟩ := results .mul
  exact ⟨known, known', narrow, rfl,
    ⟨q, qs, quotient, read, each 0 _ _ rfl rfl (by decide), each 1 _ _ rfl rfl (by decide),
      each 2 _ _ rfl rfl (by decide)⟩,
    p, ps, product, read', each' 0 _ _ rfl rfl nofun, each' 1 _ _ rfl rfl nofun,
    each' 2 _ _ rfl rfl nofun⟩

end Workbench
end TensorGraph
