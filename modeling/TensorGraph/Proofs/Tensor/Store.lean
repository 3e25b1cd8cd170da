import TensorGraph.Proofs.Tensor.Value
import TensorGraph.Tensor.Store

/-!
How a store may change. `Grows` is what the optimizer does: it adds cells and leaves the old
ones. `Evolves` is all that the tensor operations can do: they may also put another
well-formed value of the same type into a cell, so handles stay good.
-/

namespace TensorGraph

namespace Store

def Grows (σ τ : Store) : Prop :=
  ∀ (i : Nat) (v : Value), σ.cells[i]? = some v → τ.cells[i]? = some v

def Evolves (σ τ : Store) : Prop := ∀ t, σ.Holds t → τ.Holds t

variable {σ τ υ : Store} {t : Tensor} {v : Value}

theorem Grows.refl (σ : Store) : σ.Grows σ := fun _ _ found => found

theorem Grows.trans (first : σ.Grows τ) (second : τ.Grows υ) : σ.Grows υ :=
  fun i v found => second i v (first i v found)

theorem Grows.evolves (grows : σ.Grows τ) : σ.Evolves τ := by
  intro t held
  obtain ⟨v, found, rest⟩ := held
  exact ⟨v, grows _ v found, rest⟩

theorem Grows.read (grows : σ.Grows τ) (held : σ.Holds t) : τ.read t = σ.read t := by
  obtain ⟨v, found, -⟩ := held
  rw [read_of_holds found, read_of_holds (grows _ v found)]

theorem Grows.size_le (grows : σ.Grows τ) : σ.cells.size ≤ τ.cells.size := by
  refine Nat.le_of_not_lt fun inside => ?_
  have found := grows _ _ (Array.getElem?_eq_getElem inside)
  exact Nat.lt_irrefl _ (Array.getElem?_eq_some_iff.1 found).1

theorem Holds.read (held : σ.Holds t) : (σ.read t).WellFormed ∧ (σ.read t).ty = t.ty := by
  obtain ⟨v, found, type, wellFormed⟩ := held
  rw [read_of_holds found]
  exact ⟨wellFormed, type⟩

theorem grows_allocate (σ : Store) (v : Value) : σ.Grows (σ.allocate v).2 := by
  intro i w found
  obtain ⟨bound, -⟩ := Array.getElem?_eq_some_iff.1 found
  rw [getElem?_allocate bound, found]

theorem holds_allocate (σ : Store) (wellFormed : v.WellFormed) :
    (σ.allocate v).2.Holds (σ.allocate v).1 :=
  ⟨v, by simp [allocate], rfl, wellFormed⟩

/-- Putting a well-formed value of a handle's type into its cell keeps every handle good,
those that share the cell included. -/
theorem evolves_write (held : σ.Holds t) (wellFormed : v.WellFormed) (type : v.ty = t.ty) :
    σ.Evolves (σ.write t v) := by
  intro u other
  obtain ⟨w, found, sameType, promise⟩ := other
  by_cases shared : t.address = u.address
  · obtain ⟨w', found', type', -⟩ := held
    rw [shared] at found'
    obtain rfl := Option.some.inj (found'.symm.trans found)
    have bound := (Array.getElem?_eq_some_iff.1 found).1
    refine ⟨v, ?_, by rw [type, ← type', sameType], wellFormed⟩
    simp [write, shared, bound]
  · exact ⟨w, by rw [getElem?_write_ne shared, found], sameType, promise⟩

end Store

namespace Tensor

theorem compute_eq (f : Value → Except Error Value) (t : Tensor) (σ : Store) :
    t.compute f σ =
      match f (σ.read t) with
      | .ok v => .ok (σ.allocate v).1 (σ.allocate v).2
      | .error e => .error e σ := by
  cases made : f (σ.read t) with
  | ok v =>
    simp only [compute, read, state_bind, state_get, state_pure, state_check, made]
    rfl
  | error e => simp only [compute, read, state_bind, state_get, state_pure, state_check, made]

theorem compute₂_eq (f : Value → Value → Except Error Value) (a b : Tensor) (σ : Store) :
    compute₂ f a b σ =
      match f (σ.read a) (σ.read b) with
      | .ok v => .ok (σ.allocate v).1 (σ.allocate v).2
      | .error e => .error e σ := by
  cases made : f (σ.read a) (σ.read b) with
  | ok v =>
    simp only [compute₂, read, state_bind, state_get, state_pure, state_check, made]
    rfl
  | error e => simp only [compute₂, read, state_bind, state_get, state_pure, state_check, made]

/-- The computation puts a well-formed value into a new cell, or fails and leaves all as it was. -/
def Makes (x : StoreM Tensor) : Prop :=
  ∀ σ, (∃ v, v.WellFormed ∧ x σ = .ok (σ.allocate v).1 (σ.allocate v).2) ∨ ∃ e, x σ = .error e σ

theorem Makes.new {v : Value} (wellFormed : v.WellFormed) : Makes (new v) :=
  fun _ => .inl ⟨v, wellFormed, rfl⟩

theorem Makes.compute {f : Value → Except Error Value} {t : Tensor}
    (wellFormed : ∀ {v r : Value}, f v = .ok r → r.WellFormed) : Makes (t.compute f) := by
  intro σ
  rw [compute_eq]
  cases made : f (σ.read t) with
  | ok r => exact .inl ⟨r, wellFormed made, rfl⟩
  | error e => exact .inr ⟨e, rfl⟩

theorem Makes.compute₂ {f : Value → Value → Except Error Value} {a b : Tensor}
    (wellFormed : ∀ {v w r : Value}, f v w = .ok r → r.WellFormed) : Makes (compute₂ f a b) := by
  intro σ
  rw [compute₂_eq]
  cases made : f (σ.read a) (σ.read b) with
  | ok r => exact .inl ⟨r, wellFormed made, rfl⟩
  | error e => exact .inr ⟨e, rfl⟩

theorem Makes.check {made : Except Error Value}
    (wellFormed : ∀ v, made = .ok v → v.WellFormed) :
    Makes (do Tensor.new (← made)) := by
  intro σ
  cases checked : made with
  | ok v => exact .inl ⟨v, wellFormed v checked, rfl⟩
  | error e => exact .inr ⟨e, rfl⟩

theorem update_eq (t : Tensor) (data : Array Binary64) (σ : Store) :
    t.update data σ =
      match (σ.read t).overwrite data with
      | .ok v => .ok () (σ.write t v)
      | .error e => .error e σ := by
  cases made : (σ.read t).overwrite data with
  | ok v =>
    simp only [update, read, state_bind, state_get,
      state_pure, state_check, made]
    rfl
  | error e =>
    simp only [update, read, state_bind, state_get,
      state_pure, state_check, made]

theorem copyFrom_eq (t source : Tensor) (σ : Store) :
    t.copyFrom source σ =
      match t.ty.expectEq source.ty with
      | .ok () => if t.sharesStorage source then .ok () σ else t.update (σ.read source).data σ
      | .error e => .error e σ := by
  cases checked : t.ty.expectEq source.ty with
  | ok u =>
    rw [copyFrom, checked]
    by_cases shared : t.sharesStorage source
    · simp only [shared]
      rfl
    · simp only [shared]
      rfl
  | error e =>
    rw [copyFrom, checked]
    rfl

end Tensor
end TensorGraph
