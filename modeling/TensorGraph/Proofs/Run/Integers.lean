import TensorGraph.Proofs.Number.Zeros
import TensorGraph.Proofs.Run.Workbench

/-!
Tensors of narrow integers. However two tensors were made, if they are read as the same integers
then so is what is computed from them, but for one thing: a zero may be stored with either sign, and
a quotient by zero goes to the greatest integer or to the least as the signs have it.
-/

namespace TensorGraph

namespace ElementKind

variable {kind : ElementKind} {x x' y y' : Binary64}

theorem read_coerce_congr (whole : kind.isFloat = false) (same : x.rank = y.rank) :
    kind.read (kind.coerce x) = kind.read (kind.coerce y) := by
  have zero (negative : Bool) : kind.read (kind.coerce (.zero negative)) = .whole 0 := by
    cases kind with
    | float | double => cases whole
    | int8 | int32 | index => cases negative <;> decide +kernel
  by_cases blank : x.rank = 0
  · have still : y.rank = 0 := same ▸ blank
    rw [Binary64.eq_zero_of_rank blank, Binary64.eq_zero_of_rank still, zero, zero]
  · rw [Binary64.eq_of_rank same blank]

/-- Integers of at most 32 bits, whose bounds are numbers. -/
def Narrow (kind : ElementKind) : Prop := kind = .int8 ∨ kind = .int32

theorem Narrow.whole (narrow : kind.Narrow) : kind.isFloat = false := by
  rcases narrow with rfl | rfl <;> rfl

theorem Narrow.read (narrow : kind.Narrow) (stored : kind.coerce x = x) :
    ∃ n, x.toInt? = some n ∧ kind.read x = .whole n := by
  obtain ⟨n, found, atLeast, atMost⟩ := toInt?_of_coerced narrow.whole stored
  have within : n ≤ kind.greatest := by
    refine atMost.elim id fun bound => ?_
    have top : (Binary64.ofInt kind.greatest).toInt? = some kind.greatest := by
      rcases narrow with rfl | rfl <;> decide +kernel
    rw [bound, top] at found
    exact Int.le_of_eq (Option.some.inj found).symm
  refine ⟨n, found, ?_⟩
  rw [read_of_toInt? narrow.whole (stored.symm ▸ found), if_pos ⟨atLeast, within⟩]

theorem Narrow.rank_eq (narrow : kind.Narrow) (stored : kind.coerce x = x)
    (stored' : kind.coerce y = y) (same : kind.read x = kind.read y) : x.rank = y.rank := by
  obtain ⟨n, found, reads⟩ := narrow.read stored
  obtain ⟨n', found', reads'⟩ := narrow.read stored'
  obtain rfl := Scalar.whole.inj (reads.symm.trans (same.trans reads'))
  rw [← Binary64.rank_ofInt found, Binary64.rank_ofInt found']

theorem Narrow.finite (narrow : kind.Narrow) (stored : kind.coerce x = x) : x.isFinite := by
  obtain ⟨n, found, -⟩ := narrow.read stored
  exact (Binary64.of_toInt? found).1

end ElementKind

namespace Binary

variable {kind : ElementKind} {x x' y y' : Binary64}

/-- Operands of equal rank give results of equal rank, unless a number other than zero is divided by
zeros of both signs. -/
theorem rank_applyAt_congr (f : Binary) (finite : x.isFinite) (finite' : y.isFinite)
    (left : x.rank = x'.rank) (right : y.rank = y'.rank)
    (quiet : ¬ (f = .div ∧ x.isZero = false ∧ y.isZero ∧ y.negative ≠ y'.negative)) :
    (f.applyAt kind x y).rank = (f.applyAt kind x' y').rank := by
  cases f with
  | add => exact Binary64.rank_add_congr finite finite' left right
  | sub => exact Binary64.rank_sub_congr finite finite' left right
  | mul => exact Binary64.rank_mul_congr finite finite' left right
  | max => exact Binary64.rank_max_congr finite finite' left right
  | min => exact Binary64.rank_min_congr finite finite' left right
  | div =>
    have quotient : (div.apply x y).rank = (div.apply x' y').rank := by
      refine Binary64.rank_div_congr finite finite' left right fun level => ?_
      by_contra signs
      rw [not_or] at signs
      exact quiet ⟨rfl, Binary64.isZero_eq_false_iff.2 signs.1, Binary64.isZero_iff.2 level, signs.2⟩
    simp only [applyAt]
    split
    · exact quotient
    · exact Binary64.rank_truncate_congr quotient

end Binary

namespace ElementKind.Narrow

variable {kind : ElementKind} {x x' y y' : Binary64}

/-- A quotient by zero is infinite, and is held at a bound. -/
theorem read_div_zero (narrow : kind.Narrow) (finite : x.isFinite) (finite' : y.isFinite)
    (nonzero : x.isZero = false) (blank : y.isZero) :
    kind.read (kind.coerce (Binary.div.applyAt kind x y)) =
      .whole (if x.negative = y.negative then kind.greatest else kind.least) := by
  have quotient : Binary.div.apply x y = .infinity (x.negative != y.negative) := by
    change x / y = _
    rw [Binary64.div_of_finite finite finite', if_pos blank, if_neg (by simp [nonzero])]
  rw [Binary.applyAt, narrow.whole, if_neg Bool.false_ne_true, quotient]
  rcases narrow with rfl | rfl <;> cases x.negative <;> cases y.negative <;> decide +kernel

/-- On integers that are read alike, an operation gives integers that are read alike, unless it
divides a number other than zero by zeros of both signs. -/
theorem read_applyAt_iff (narrow : kind.Narrow) (f : Binary) (stored : kind.coerce x = x)
    (stored' : kind.coerce x' = x') (divides : kind.coerce y = y) (divides' : kind.coerce y' = y')
    (left : kind.read x = kind.read x') (right : kind.read y = kind.read y') :
    kind.read (kind.coerce (f.applyAt kind x y)) = kind.read (kind.coerce (f.applyAt kind x' y')) ↔
      ¬ (f = .div ∧ x.isZero = false ∧ y.isZero ∧ y.negative ≠ y'.negative) := by
  have ranks := narrow.rank_eq stored stored' left
  have ranks' := narrow.rank_eq divides divides' right
  have finite := narrow.finite stored
  have finite' := narrow.finite divides
  refine ⟨fun same split => ?_, fun quiet => ?_⟩
  · obtain ⟨rfl, nonzero, blank, signs⟩ := split
    have other : y'.isZero := Binary64.isZero_iff.2 (ranks' ▸ Binary64.isZero_iff.1 blank)
    obtain rfl := Binary64.eq_of_rank ranks (Binary64.isZero_eq_false_iff.1 nonzero)
    rw [narrow.read_div_zero finite finite' nonzero blank,
      narrow.read_div_zero finite (narrow.finite divides') nonzero other] at same
    have bounds : kind.least ≠ kind.greatest := by rcases narrow with rfl | rfl <;> decide
    have reads := Scalar.whole.inj same
    by_cases sign : x.negative = y.negative
    · rw [if_pos sign, if_neg (sign ▸ signs)] at reads
      exact bounds reads.symm
    · have sign' : x.negative = y'.negative :=
        (Bool.eq_not_of_ne sign).trans (Bool.eq_not_of_ne signs.symm).symm
      rw [if_neg sign, if_pos sign'] at reads
      exact bounds reads
  · exact read_coerce_congr narrow.whole
      (Binary.rank_applyAt_congr f finite finite' ranks ranks' quiet)

theorem read_apply_congr (narrow : kind.Narrow) {f : Unary} (plain : f = .neg ∨ f = .relu)
    (stored : kind.coerce x = x) (stored' : kind.coerce x' = x')
    (same : kind.read x = kind.read x') :
    kind.read (kind.coerce (f.apply x)) = kind.read (kind.coerce (f.apply x')) := by
  have ranks := narrow.rank_eq stored stored' same
  refine read_coerce_congr narrow.whole ?_
  rcases plain with rfl | rfl
  · change (-x).rank = (-x').rank
    rw [Binary64.rank_neg, Binary64.rank_neg, ranks]
  · exact Binary64.rank_max_congr (narrow.finite stored) (by decide) ranks rfl

end ElementKind.Narrow

namespace Value

variable {a a' b b' v w : Value}

/-- Values of one type that are read alike. -/
structure Alike (v w : Value) : Prop where
  type : v.ty = w.ty
  reads : v.scalars v.ty.kind = w.scalars w.ty.kind

/-- They are read alike at one position, or neither has it. -/
def AlikeAt (v w : Value) (i : Nat) : Prop :=
  v.data[i]?.map v.ty.kind.read = w.data[i]?.map w.ty.kind.read

/-- At this position a number other than zero meets zeros of both signs. -/
def SplitsZero (a b b' : Value) (i : Nat) : Prop :=
  ∃ x y y' : Binary64, a.data[i]? = some x ∧ b.data[i]? = some y ∧ b'.data[i]? = some y' ∧
    x.isZero = false ∧ y.isZero = true ∧ y.negative ≠ y'.negative

theorem alike_iff (type : v.ty = w.ty) : v.Alike w ↔ ∀ i, v.AlikeAt w i := by
  have reads (u : Value) : u.scalars u.ty.kind = .ok (u.data.map u.ty.kind.read) := if_pos rfl
  have elements : v.Alike w ↔ v.data.map v.ty.kind.read = w.data.map w.ty.kind.read := by
    refine ⟨fun alike => ?_, fun same => ⟨type, ?_⟩⟩
    · have same := alike.reads
      rw [reads, reads] at same
      exact Except.ok.inj same
    · rw [reads, reads, same]
  simp only [elements, AlikeAt, ← Array.getElem?_map]
  exact ⟨fun same i => congrArg (·[i]?) same, fun each => Array.ext_getElem? each⟩

theorem WellFormed.element (wellFormed : v.WellFormed) {i : Nat} (inside : i < v.ty.count) :
    ∃ x, v.data[i]? = some x ∧ v.ty.kind.coerce x = x := by
  rw [← wellFormed.size_eq] at inside
  exact ⟨_, Array.getElem?_eq_getElem inside, wellFormed.coerced _ (Array.getElem_mem inside)⟩

theorem WellFormed.no_element (wellFormed : v.WellFormed) {i : Nat} (outside : ¬ i < v.ty.count) :
    v.data[i]? = none := by
  rw [← wellFormed.size_eq] at outside
  exact Array.getElem?_eq_none (Nat.le_of_not_lt outside)

/-- What an operation gives on values that are read alike is read alike at each position, unless it
divides a number other than zero by zeros of both signs there. -/
theorem alikeAt_binary_iff (narrow : a.ty.kind.Narrow) (wellFormed : a.WellFormed)
    (wellFormed' : a'.WellFormed) (divides : b.WellFormed) (divides' : b'.WellFormed)
    (same : a.ty = b.ty) (left : a.Alike a') (right : b.Alike b') (f : Binary) :
    ∃ r r', binary f a b = .ok r ∧ binary f a' b' = .ok r' ∧ r.ty = a.ty ∧ r'.ty = a.ty ∧
      ∀ i, r.AlikeAt r' i ↔ ¬ (f = .div ∧ a.SplitsZero b b' i) := by
  have same' : a'.ty = b'.ty := left.type.symm.trans (same.trans right.type)
  refine ⟨_, _, binary_eq wellFormed divides same f, binary_eq wellFormed' divides' same' f, rfl,
    left.type.symm, fun i => ?_⟩
  have type : b.ty = a.ty := same.symm
  have type' : b'.ty = a.ty := right.type.symm.trans type
  by_cases inside : i < a.ty.count
  · obtain ⟨x, first, stored⟩ := wellFormed.element inside
    obtain ⟨x', first', stored'⟩ := wellFormed'.element (left.type ▸ inside)
    obtain ⟨y, second, divisor⟩ := divides.element (type.symm ▸ inside)
    obtain ⟨y', second', divisor'⟩ := divides'.element (type'.symm ▸ inside)
    have dividends := (alike_iff left.type).1 left i
    have divisors := (alike_iff right.type).1 right i
    simp only [AlikeAt, first, first', second, second', ← left.type, type, type', Option.map_some,
      Option.some.injEq] at dividends divisors
    rw [← left.type] at stored'
    rw [type] at divisor
    rw [type'] at divisor'
    have reads := narrow.read_applyAt_iff f stored stored' divisor divisor' dividends divisors
    simpa [AlikeAt, SplitsZero, Array.getElem?_zipWith, first, first', second, second', ← left.type]
      using reads
  · have missing := wellFormed.no_element inside
    have missing' := wellFormed'.no_element (left.type ▸ inside)
    simp [AlikeAt, SplitsZero, Array.getElem?_zipWith, missing, missing']

theorem alike_unary (narrow : a.ty.kind.Narrow) (wellFormed : a.WellFormed)
    (wellFormed' : a'.WellFormed) (alike : a.Alike a') {f : Unary} (plain : f = .neg ∨ f = .relu) :
    ∃ r r', a.unary f = .ok r ∧ a'.unary f = .ok r' ∧ r.ty = a.ty ∧ r.Alike r' := by
  refine ⟨_, _, unary_eq wellFormed f, unary_eq wellFormed' f, rfl, ?_⟩
  refine (alike_iff ?_).2 fun i => ?_
  · exact alike.type
  by_cases inside : i < a.ty.count
  · obtain ⟨x, first, stored⟩ := wellFormed.element inside
    obtain ⟨x', first', stored'⟩ := wellFormed'.element (alike.type ▸ inside)
    have same := (alike_iff alike.type).1 alike i
    simp only [AlikeAt, first, first', ← alike.type, Option.map_some, Option.some.injEq] at same
    rw [← alike.type] at stored'
    have reads := narrow.read_apply_congr plain stored stored' same
    simpa [AlikeAt, first, first', ← alike.type] using reads
  · have missing := wellFormed.no_element inside
    have missing' := wellFormed'.no_element (alike.type ▸ inside)
    simp [AlikeAt, missing, missing']

end Value

namespace Workbench

/-- Whatever calls made them: of two pairs of tensors of one type, of 8-bit or 32-bit integers, that
are read as the same integers, every operation succeeds on both. Negations and cut-offs are read as
the same integers, and so are sums, differences, products, maxima and minima. Quotients are read as
the same integer at exactly the positions where no number other than zero is divided by zeros that
are stored with different signs. -/
theorem integer_results_agree_iff (calls calls' : List Call) :
    let w := calls.foldl perform empty
    let w' := calls'.foldl perform empty
    let σ := w.memory.store
    let σ' := w'.memory.store
    ∀ a b a' b' : Tensor, w.Knows a → w.Knows b → w'.Knows a' → w'.Knows b' →
      a.ty.kind.Narrow → a.ty = b.ty → (σ.read a).Alike (σ'.read a') →
      (σ.read b).Alike (σ'.read b') →
      (∀ f : Binary, ∃ r r', Value.binary f (σ.read a) (σ.read b) = .ok r ∧
        Value.binary f (σ'.read a') (σ'.read b') = .ok r' ∧ r.ty = a.ty ∧ r'.ty = a.ty ∧
        (∀ i, r.AlikeAt r' i ↔
          ¬ (f = .div ∧ (σ.read a).SplitsZero (σ.read b) (σ'.read b') i)) ∧
        (f ≠ .div → r.Alike r')) ∧
      ∀ f : Unary, f = .neg ∨ f = .relu → ∃ r r', (σ.read a).unary f = .ok r ∧
        (σ'.read a').unary f = .ok r' ∧ r.ty = a.ty ∧ r.Alike r' := by
  intro w w' σ σ' a b a' b' known divisor known' divisor' narrow same left right
  have sound := (sound_empty.performAll calls).sound
  have sound' := (sound_empty.performAll calls').sound
  obtain ⟨wellFormed, type⟩ := (sound.knows known).read
  obtain ⟨divides, type'⟩ := (sound.knows divisor).read
  have wellFormed' := (sound'.knows known').read.1
  have divides' := (sound'.knows divisor').read.1
  rw [← type] at narrow ⊢
  refine ⟨fun f => ?_, fun f plain => Value.alike_unary narrow wellFormed wellFormed' left plain⟩
  obtain ⟨r, r', made, made', first, second, each⟩ := Value.alikeAt_binary_iff narrow wellFormed
    wellFormed' divides divides' (type.trans (same.trans type'.symm)) left right f
  refine ⟨r, r', made, made', first, second, each, fun other => ?_⟩
  exact (Value.alike_iff (first.trans second.symm)).2 fun i => (each i).2 fun split => other split.1

-- A one, a zero and the zero negated.

namespace Zeros

def made : List Call :=
  [.make (.scalars #[.whole 1] (.vector 1) .int8), .make (.scalars #[.whole 0] (.vector 1) .int8),
    .derive (.unary .neg) 1]

def store : Store := (made.foldl perform empty).memory.store

def one : Tensor := ⟨0, ⟨.int8, .vector 1⟩⟩
def plain : Tensor := ⟨1, ⟨.int8, .vector 1⟩⟩
def negated : Tensor := ⟨2, ⟨.int8, .vector 1⟩⟩

theorem known : (made.foldl perform empty).Knows one ∧ (made.foldl perform empty).Knows plain ∧
    (made.foldl perform empty).Knows negated :=
  ⟨.inl (by decide +kernel), .inl (by decide +kernel), .inl (by decide +kernel)⟩

theorem alike : (store.read plain).Alike (store.read negated) :=
  ⟨by decide +kernel, by decide +kernel⟩

end Zeros

open Zeros

theorem integer_results_agree_iff_zeros :
    (∃ r r', Value.binary .sub (store.read one) (store.read plain) = .ok r ∧
      Value.binary .sub (store.read one) (store.read negated) = .ok r' ∧ r.Alike r') ∧
    ∃ r r', Value.binary .div (store.read one) (store.read plain) = .ok r ∧
      Value.binary .div (store.read one) (store.read negated) = .ok r' ∧ ¬ r.AlikeAt r' 0 := by
  obtain ⟨first, second, third⟩ := known
  obtain ⟨results, -⟩ := integer_results_agree_iff made made one plain one negated first second first
    third (.inl rfl) rfl ⟨rfl, rfl⟩ alike
  have split : (store.read one).SplitsZero (store.read plain) (store.read negated) 0 :=
    ⟨.ofInt 1, .zero false, .zero true, by decide +kernel, by decide +kernel, by decide +kernel,
      by decide +kernel, by decide, by decide⟩
  obtain ⟨d, d', difference, difference', -, -, -, agree⟩ := results .sub
  obtain ⟨q, q', quotient, quotient', -, -, each, -⟩ := results .div
  exact ⟨⟨d, d', difference, difference', agree fun wrong => nomatch wrong⟩,
    q, q', quotient, quotient', fun same => (each 0).1 same ⟨rfl, split⟩⟩

/-- One divided by two zeros that are read as the same integer. -/
theorem quotients_by_zeros_differ :
    ((made.foldl perform empty).Knows one ∧ (made.foldl perform empty).Knows plain ∧
      (made.foldl perform empty).Knows negated) ∧
    (store.read plain).scalars .int8 = .ok #[.whole 0] ∧
    (store.read negated).scalars .int8 = .ok #[.whole 0] ∧
    ∃ r r', Value.binary .div (store.read one) (store.read plain) = .ok r ∧
      Value.binary .div (store.read one) (store.read negated) = .ok r' ∧
      r.scalars .int8 = .ok #[.whole 127] ∧ r'.scalars .int8 = .ok #[.whole (-128)] := by
  refine ⟨known, ?_, ?_, ⟨⟨.int8, .vector 1⟩, #[.ofInt 127]⟩,
    ⟨⟨.int8, .vector 1⟩, #[.ofInt (-128)]⟩, ?_, ?_, ?_, ?_⟩ <;> decide +kernel

end Workbench
end TensorGraph
