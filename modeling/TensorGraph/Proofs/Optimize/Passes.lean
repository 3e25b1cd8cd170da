import TensorGraph.Optimize.Passes
import TensorGraph.Proofs.Optimize.Folding
import TensorGraph.Proofs.Optimize.Fusion
import TensorGraph.Proofs.Optimize.Merging
import TensorGraph.Proofs.Optimize.Pruning

/-!
Each pass, and the optimizer, rewrites every lawful function, unless folding comes to a value that
cannot be counted.
-/

namespace TensorGraph.Function

variable {declared : List Placeholder} {σ τ : Store} {f g h : Function} {mode : Mode}

theorem Overflows.not_ok {α : Type} {x : StoreM α} (past : f.Overflows x σ) {a : α} {τ : Store} :
    x σ ≠ .ok a τ := by
  obtain ⟨-, υ, failed, -⟩ := past
  rw [failed]
  exact nofun

theorem Lawful.apply (lawful : f.Lawful declared σ) (apart : Placeholder.Apart declared)
    (pass : Pass) :
    (∃ g count τ, pass.apply f σ = .ok (g, count) τ ∧ Rewrites declared σ f τ g) ∨
    f.Overflows (pass.apply f) σ := by
  cases pass with
  | fold => exact lawful.foldConstants
  | merge => exact .inl ⟨_, _, σ, rfl, lawful.mergeCommon apart⟩
  | fuse => exact .inl ⟨_, _, σ, rfl, lawful.fuseAddRelu⟩
  | prune => exact .inl ⟨_, _, σ, rfl, lawful.prune⟩

/-- Fusion, if optimizing for `mode` has any. -/
def fusedFor (mode : Mode) (f : Function) : Function × Nat :=
  if mode.isTraining then (f, 0) else f.fuseAddRelu

theorem Lawful.optimize_of_folded (lawful : f.Lawful declared σ) {count : Nat}
    (folded : f.foldConstants σ = .ok (h, count) τ) (mode : Mode) :
    let fused := h.mergeCommon.1.fusedFor mode
    f.optimize mode σ =
      .ok (fused.1.prune.1, ⟨count, h.mergeCommon.2, fused.2, fused.1.prune.2⟩) τ := by
  have verified : (liftM f.verify : StoreM Unit) σ = .ok () σ := by
    rw [state_check, lawful.verify]
  rw [Function.optimize, state_bind_of_ok verified, state_bind_of_ok folded]
  cases mode <;> rfl

theorem Lawful.optimize_eq_ok (lawful : f.Lawful declared σ) {counts : PassCounts}
    (made : f.optimize mode σ = .ok (g, counts) τ) :
    ∃ h folded, f.foldConstants σ = .ok (h, folded) τ ∧ Rewrites declared σ f τ h ∧
      let fused := h.mergeCommon.1.fusedFor mode
      g = fused.1.prune.1 ∧ counts = ⟨folded, h.mergeCommon.2, fused.2, fused.1.prune.2⟩ := by
  obtain ⟨h, folded, υ, first, folding⟩ | ⟨-, υ, failed, -⟩ := lawful.foldConstants
  · cases made.symm.trans (lawful.optimize_of_folded first mode)
    exact ⟨h, folded, first, folding, rfl, rfl⟩
  · have verified : (liftM f.verify : StoreM Unit) σ = .ok () σ := by
      rw [state_check, lawful.verify]
    rw [Function.optimize, state_bind_of_ok verified, state_bind_of_error failed] at made
    cases made

theorem Lawful.optimize (lawful : f.Lawful declared σ) (apart : Placeholder.Apart declared)
    (mode : Mode) :
    (∃ g counts τ, f.optimize mode σ = .ok (g, counts) τ ∧ Rewrites declared σ f τ g) ∨
    f.Overflows (f.optimize mode) σ := by
  obtain ⟨h, folded, τ, made, folding⟩ | ⟨unfit, τ, failed, grows⟩ := lawful.foldConstants
  · have merging := folding.trans (folding.lawful.mergeCommon apart)
    refine .inl ⟨_, _, τ, lawful.optimize_of_folded made mode, ?_⟩
    cases mode with
    | infer =>
      have fusing := merging.trans merging.lawful.fuseAddRelu
      exact fusing.trans fusing.lawful.prune
    | train => exact merging.trans merging.lawful.prune
  · have verified : (liftM f.verify : StoreM Unit) σ = .ok () σ := by
      rw [state_check, lawful.verify]
    refine .inr ⟨unfit, τ, ?_, grows⟩
    rw [Function.optimize, state_bind_of_ok verified, state_bind_of_error failed]

end TensorGraph.Function
