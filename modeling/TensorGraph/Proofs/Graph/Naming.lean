import TensorGraph.Proofs.History

/-!
Names in a module. A placeholder is declared under a name that no other has, and nothing renames
or removes one, so after any history each name leads to one placeholder.
-/

namespace TensorGraph

variable {m : Module} {w : Workspace}

/-- `after` has the placeholders of `before`, and at most one more, under a new name. -/
def Module.Declares (before after : Module) : Prop :=
  after.placeholders = before.placeholders ∨
    ∃ p : Placeholder, (∀ q ∈ before.placeholders, q.name ≠ p.name) ∧
      after.placeholders = before.placeholders ++ [p]

theorem Module.Declares.names {before after : Module} (declares : before.Declares after)
    (distinct : (before.placeholders.map (·.name)).Nodup) :
    (after.placeholders.map (·.name)).Nodup := by
  rcases declares with same | ⟨p, new, added⟩
  · rwa [same]
  · rw [added, List.map_append, List.nodup_append]
    refine ⟨distinct, List.pairwise_singleton _ _, fun name member other last => ?_⟩
    obtain ⟨q, present, rfl⟩ := List.mem_map.1 member
    rw [List.mem_singleton.1 last]
    exact new q present

theorem Module.declares_createPlaceholder (m : Module) (kind : ElementKind) (shape : Shape)
    (name : String) (trainable : Bool) :
    m.Declares (stateAfter (createPlaceholder kind shape name trainable) m) := by
  unfold stateAfter createPlaceholder
  simp only [state_bind, state_check, state_get]
  cases shape.validate with
  | error e => exact .inl rfl
  | ok u =>
    by_cases taken : m.placeholders.any (·.name = name)
    · simp only [if_pos taken]
      exact .inl rfl
    · simp only [if_neg taken]
      refine .inr ⟨_, fun q member same => taken (List.any_eq_true.2 ⟨q, member, ?_⟩), rfl⟩
      simpa using same

theorem Module.declares_build (m : Module) (name : String) {α : Type} (steps : Builder α) :
    m.Declares (stateAfter (build name steps) m) := by
  refine .inl ?_
  unfold stateAfter build
  cases m.function name with
  | error e => rfl
  | ok f =>
    dsimp only
    cases steps f <;> rfl

theorem Workspace.declares_rewrite {α : Type} (w : Workspace) (name : String)
    (pass : Function → StoreM (Function × α)) : w.module.Declares (w.rewrite name pass).module := by
  refine .inl ?_
  unfold rewrite
  cases w.module.function name with
  | error e => rfl
  | ok f =>
    dsimp only
    cases pass f w.store <;> rfl

theorem Workspace.declares_perform (w : Workspace) (action : Action) :
    w.module.Declares (w.perform action).module := by
  cases action with
  | declare kind shape name trainable => exact w.module.declares_createPlaceholder ..
  | create name =>
    rcases w.module.createFunction_after name with same | same <;>
      have kept := congrArg Module.placeholders same <;> exact .inl kept
  | erase name =>
    rcases w.module.eraseFunction_after name with same | same <;>
      have kept := congrArg Module.placeholders same <;> exact .inl kept
  | build name call => exact w.module.declares_build name call.run
  | apply name pass => exact w.declares_rewrite name pass.apply
  | optimize name mode => exact w.declares_rewrite name (·.optimize mode)

theorem Workspace.Reachable.names_distinct (reached : w.Reachable) :
    (w.module.placeholders.map (·.name)).Nodup := by
  induction reached with
  | start id σ => exact List.nodup_nil
  | tensors reached evolves ih => exact ih
  | @act w action reached admits ih => exact (w.declares_perform action).names ih

end TensorGraph
