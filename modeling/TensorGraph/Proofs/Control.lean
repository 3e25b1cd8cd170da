import TensorGraph.Error

/-! Checked computations step by step: what a sequence gives when its first part succeeds or
fails. -/

namespace TensorGraph

variable {ε σ α β : Type}

@[simp] theorem except_pure (a : α) : (pure a : Except ε α) = .ok a := rfl

@[simp] theorem except_throw (e : ε) : (throw e : Except ε α) = .error e := rfl

@[simp] theorem ok_bind (a : α) (f : α → Except ε β) : (Except.ok a >>= f) = f a := rfl

@[simp] theorem error_bind (e : ε) (f : α → Except ε β) : (Except.error e >>= f) = .error e := rfl

theorem bind_eq_ok {x : Except ε α} {f : α → Except ε β} {b : β} :
    x >>= f = .ok b ↔ ∃ a, x = .ok a ∧ f a = .ok b := by
  cases x <;> simp

theorem bind_eq_error {x : Except ε α} {f : α → Except ε β} {e : ε} :
    x >>= f = .error e ↔ x = .error e ∨ ∃ a, x = .ok a ∧ f a = .error e := by
  cases x <;> simp

theorem bind_ne_overflow {x : Except Error α} {f : α → Except Error β}
    (first : x ≠ .error .overflow) (rest : ∀ a, f a ≠ .error .overflow) :
    x >>= f ≠ .error .overflow := by
  intro failed
  rcases bind_eq_error.1 failed with here | ⟨a, -, later⟩
  · exact first here
  · exact rest a later

theorem mapError_eq_ok {ε' : Type} {x : Except ε α} {g : ε → ε'} {a : α} :
    x.mapError g = .ok a ↔ x = .ok a := by
  cases x with
  | ok b => exact ⟨fun | rfl => rfl, fun | rfl => rfl⟩
  | error e => exact ⟨nofun, nofun⟩

theorem exists_of_isOk {x : Except ε α} (succeeds : x.isOk = true) : ∃ a, x = .ok a := by
  cases x with
  | ok a => exact ⟨a, rfl⟩
  | error e => cases succeeds

theorem toOption_eq_some {x : Except ε α} {a : α} : x.toOption = some a ↔ x = .ok a := by
  cases x <;> simp [Except.toOption]

/-- A stateful computation goes on from where its first part stopped. -/
theorem state_bind (x : EStateM ε σ α) (f : α → EStateM ε σ β) (s : σ) :
    (x >>= f) s =
      match x s with
      | .ok a s => f a s
      | .error e s => .error e s := rfl

theorem state_bind_eq_ok {x : EStateM ε σ α} {f : α → EStateM ε σ β} {s s' : σ} {b : β} :
    (x >>= f) s = .ok b s' ↔ ∃ a t, x s = .ok a t ∧ f a t = .ok b s' := by
  rw [state_bind]
  cases x s with
  | ok a t =>
    refine ⟨fun h => ⟨a, t, rfl, h⟩, ?_⟩
    rintro ⟨_, _, first, rest⟩
    cases first
    exact rest
  | error e t => simp

theorem state_bind_of_error {x : EStateM ε σ α} {f : α → EStateM ε σ β} {s t : σ} {e : ε}
    (h : x s = .error e t) : (x >>= f) s = .error e t := by
  rw [state_bind, h]

theorem state_bind_of_ok {x : EStateM ε σ α} {f : α → EStateM ε σ β} {s t : σ} {a : α}
    (h : x s = .ok a t) : (x >>= f) s = f a t := by
  rw [state_bind, h]

theorem state_run'_eq_some {x : EStateM ε σ α} {s : σ} {a : α} :
    x.run' s = some a ↔ ∃ t, x s = .ok a t := by
  delta EStateM.run' EStateM.run
  cases x s <;> simp

@[simp] theorem state_pure (a : α) (s : σ) : (pure a : EStateM ε σ α) s = .ok a s := rfl

@[simp] theorem state_get (s : σ) : (get : EStateM ε σ σ) s = .ok s s := rfl

@[simp] theorem state_throw (e : ε) (s : σ) : (throw e : EStateM ε σ α) s = .error e s := rfl

theorem state_check (x : Except ε α) (s : σ) :
    (liftM x : EStateM ε σ α) s =
      match x with
      | .ok a => .ok a s
      | .error e => .error e s := rfl

theorem state_adaptExcept {ε' : Type} (x : EStateM ε σ α) (g : ε → ε') (s : σ) :
    x.adaptExcept g s =
      match x s with
      | .ok a s => .ok a s
      | .error e s => .error (g e) s := by
  unfold EStateM.adaptExcept
  cases x s <;> rfl

/-- Two computations side by side: both fail with the same error, or both succeed with related
results. -/
inductive Lockstep {ε α β : Type} (related : α → β → Prop) : Except ε α → Except ε β → Prop where
  | error (e : ε) : Lockstep related (.error e) (.error e)
  | ok {a : α} {b : β} (results : related a b) : Lockstep related (.ok a) (.ok b)

namespace Lockstep

variable {γ δ : Type} {related related' : α → β → Prop} {next : γ → δ → Prop}
  {x : Except ε α} {y : Except ε β}

theorem refl (x : Except ε α) : Lockstep Eq x x := by
  cases x with
  | error e => exact .error e
  | ok a => exact .ok rfl

theorem bind (first : Lockstep related x y) {f : α → Except ε γ} {g : β → Except ε δ}
    (rest : ∀ a b, related a b → Lockstep next (f a) (g b)) :
    Lockstep next (x >>= f) (y >>= g) := by
  cases first with
  | error e => exact .error e
  | ok results => exact rest _ _ results

theorem symm (both : Lockstep related x y) : Lockstep (fun b a => related a b) y x := by
  cases both with
  | error e => exact .error e
  | ok results => exact .ok results

theorem trans {z : Except ε γ} {after : β → γ → Prop} (first : Lockstep related x y)
    (second : Lockstep after y z) : Lockstep (fun a c => ∃ b, related a b ∧ after b c) x z := by
  cases first with
  | error e =>
    cases second
    exact .error e
  | ok results =>
    cases second with
    | ok results' => exact .ok ⟨_, results, results'⟩

theorem mono (both : Lockstep related x y) (weaker : ∀ a b, related a b → related' a b) :
    Lockstep related' x y := by
  cases both with
  | error e => exact .error e
  | ok results => exact .ok (weaker _ _ results)

end Lockstep

end TensorGraph
