import TensorGraph.Engine.Batch
import TensorGraph.Proofs.Control

/-!
Batch runs one iteration at a time. A batch run checks its inputs by their types alone, which
nothing ever changes, so it may be interrupted after any iteration and gone on with later.
-/

namespace TensorGraph

variable {e : Engine} {inputs : List (Placeholder × Tensor)} {width : Nat}

namespace Batch

/-- The checks before the first iteration, which give the width. -/
def validate (placeholders : List Placeholder) (inputs : List Tensor) : Except Error Nat :=
  if placeholders.length ≠ inputs.length then
    .error (.arityMismatch "run_batch" placeholders.length inputs.length)
  else sharedWidth (placeholders.zip inputs)

theorem lift_run {α : Type} (x : Run α) (s : BatchState) :
    (liftM x : BatchRun α) s =
      match x s.memory with
      | .ok a μ => .ok a { s with memory := μ }
      | .error err μ => .error err { s with memory := μ } := rfl

theorem iterate_succ (iterations : Nat) (s : BatchState) :
    iterate e inputs width (iterations + 1) s =
      if cursorBound ≤ s.cursor + width then .error (.cursorOverflow s.cursor width) s
      else
        match bindRows inputs width s.cursor s.memory with
        | .error err μ => .error err ⟨μ, s.cursor⟩
        | .ok () μ =>
          match e.run μ with
          | .error err μ => .error err ⟨μ, s.cursor⟩
          | .ok () μ => iterate e inputs width iterations ⟨μ, s.cursor + width⟩ := by
  rw [iterate, state_bind, state_get]
  dsimp only
  split
  next => rfl
  next =>
    change (do
      bindRows inputs width s.cursor
      e.run
      modify ({ · with cursor := s.cursor + width })
      iterate e inputs width iterations : BatchRun Unit) s = _
    rw [state_bind, lift_run]
    cases bindRows inputs width s.cursor s.memory with
    | error err μ => rfl
    | ok _ μ =>
      dsimp only
      rw [state_bind, lift_run]
      cases e.run μ <;> rfl

theorem iterate_add (first rest : Nat) (s : BatchState) :
    iterate e inputs width (first + rest) s =
      (do iterate e inputs width first; iterate e inputs width rest) s := by
  induction first generalizing s with
  | zero => rw [Nat.zero_add]; rfl
  | succ first ih =>
    rw [Nat.add_right_comm, iterate_succ, state_bind, iterate_succ]
    split
    next => rfl
    next =>
      cases bindRows inputs width s.cursor s.memory with
      | error err μ => rfl
      | ok _ μ =>
        dsimp only
        cases e.run μ with
        | error err μ => rfl
        | ok _ μ => exact ih _

end Batch

theorem Engine.runBatch_eq (e : Engine) (iterations : Nat) (placeholders : List Placeholder)
    (inputs : List Tensor) (s : BatchState) :
    e.runBatch iterations placeholders inputs s =
      match Batch.validate placeholders inputs with
      | .error err => .error err s
      | .ok width => Batch.iterate e (placeholders.zip inputs) width iterations s := by
  unfold runBatch Batch.validate
  split
  next => rfl
  next =>
    change (do
      let width ← Batch.sharedWidth (placeholders.zip inputs)
      Batch.iterate e (placeholders.zip inputs) width iterations : BatchRun Unit) s = _
    rw [state_bind, state_check]
    cases Batch.sharedWidth (placeholders.zip inputs) <;> rfl

/-- Running `first + rest` iterations is running `first` of them and then, unless one failed,
the `rest` from the memory and the cursor that these left: same result, same bindings, same
cells, whoever shares them. -/
theorem Engine.runBatch_add (e : Engine) (first rest : Nat) (placeholders : List Placeholder)
    (inputs : List Tensor) :
    e.runBatch (first + rest) placeholders inputs = (do
      e.runBatch first placeholders inputs
      e.runBatch rest placeholders inputs) := by
  funext s
  rw [runBatch_eq, state_bind, runBatch_eq]
  cases checked : Batch.validate placeholders inputs with
  | error err => rfl
  | ok width =>
    -- the second call checks the same types again, so it passes
    simp only [runBatch_eq, checked]
    rw [Batch.iterate_add, state_bind]

end TensorGraph
