import TensorGraph.Proofs.Optimize.Carrying

/-!
What an optimized function looks like. Its nodes are nodes of the function it was, in their order:
a node stays, is folded into a constant, or takes in the sum that it cuts off. Each of them
reaches a save, none is left to fold, and without earlier fusion none is left to merge.
-/

namespace TensorGraph

namespace Op

variable {ι κ : Type} {g : ι → κ} {op : Op ι} {x y : κ}

theorem map_eq_unary {u : Unary} (same : op.map g = .unary u x) :
    ∃ a, op = .unary u a ∧ g a = x := by
  cases op <;> cases same
  exact ⟨_, rfl, rfl⟩

theorem map_eq_binary {u : Binary} (same : op.map g = .binary u x y) :
    ∃ a b, op = .binary u a b ∧ g a = x ∧ g b = y := by
  cases op <;> cases same
  exact ⟨_, _, rfl, rfl, rfl⟩

end Op

variable {declared : List Placeholder} {σ τ : Store} {f g : Function} {n m : Node} {i j : Nat}

/-- A node from which a save is reached, going from operands to readers. -/
inductive Function.ReachesSave (f : Function) : NodeId → Prop where
  | save {i : Nat} {n : Node} (found : f.nodes[i]? = some n) (save : n.op.isSave = true) :
      f.ReachesSave i
  | read {i j : Nat} {n : Node} (found : f.nodes[j]? = some n) (member : i ∈ n.op.operands)
      (next : f.ReachesSave j) : f.ReachesSave i

/-- What a node of `f` may turn into, where `ρ` says what its operands became: the same node, a
constant, or a cut-off that reads what its sum read. -/
inductive Function.Becomes (f : Function) (ρ : NodeId → NodeId) (n : Node) : Node → Prop where
  | kept : f.Becomes ρ n (n.rename ρ)
  | folded {t : Tensor} (computes : n.op.isComputation = true) :
      f.Becomes ρ n { n with op := .constant t }
  | fused {x y a b : NodeId} {sum : Node} (cut : n.op = .unary .relu x) (same : ρ y = ρ x)
      (source : f.nodes[y]? = some sum) (add : sum.op = .binary .add a b) :
      f.Becomes ρ n { n with op := .addRelu (ρ a) (ρ b) }

/-- The nodes of `g` are nodes of `f` in the same order. Node `j` of `g` was node `place j` of
`f`, and readers of node `x` of `f` now read node `ρ x`. -/
structure Function.ComesFrom (g f : Function) (place ρ : NodeId → NodeId) : Prop where
  ordered : ∀ i j, i < j → j < g.size → place i < place j
  back : ∀ j < g.size, ρ (place j) = j
  nodes : ∀ (j : Nat) (m : Node), g.nodes[j]? = some m →
    ∃ n, f.nodes[place j]? = some n ∧ f.Becomes ρ n m

namespace Function

theorem Lawful.reachesSave (lawful : f.Lawful declared σ) (live : f.live[i]? = some true) :
    f.ReachesSave i := by
  refine lawful.live_induction (P := f.ReachesSave) (fun i n found save => .save found save)
    (fun j n found _ next x member => .read found member next) live

theorem exists_place (f : Function) : ∃ place : NodeId → NodeId,
    (∀ i j, i < j → j < f.prune.1.size → place i < place j) ∧
    ∀ (j : Nat) (m : Node), f.prune.1.nodes[j]? = some m →
      f.live[place j]? = some true ∧ f.position (place j) = j ∧
        ∃ n, f.nodes[place j]? = some n ∧ m = n.rename f.position := by
  have each : ∀ j : Nat, j < f.prune.1.size → ∃ i : Nat, f.live[i]? = some true ∧
      f.position i = j ∧ ∃ n, f.nodes[i]? = some n ∧
        f.prune.1.nodes[j]? = some (n.rename f.position) := by
    intro j inside
    have found := List.getElem?_eq_getElem inside
    obtain ⟨i, n, source, live, back, same⟩ := prune_getElem? found
    exact ⟨i, live, back, n, source, same ▸ found⟩
  choose! place live back there using each
  refine ⟨place, fun i j less inside => ?_, fun j m found => ?_⟩
  · by_contra later
    rcases Nat.lt_or_eq_of_le (Nat.le_of_not_lt later) with before | same
    · have moved := position_lt (live j inside) before
      rw [back j inside, back i (Nat.lt_trans less inside)] at moved
      exact Nat.lt_asymm less moved
    · have moved := back i (Nat.lt_trans less inside)
      rw [← same, back j inside] at moved
      exact Nat.ne_of_gt less moved
  · have inside := (List.getElem?_eq_some_iff.1 found).1
    obtain ⟨n, source, kept⟩ := there j inside
    exact ⟨live j inside, back j inside, n, source, Option.some.inj (found.symm.trans kept)⟩

theorem fusedFor_cases {mode : Mode} (found : (f.fusedFor mode).1.nodes[i]? = some m) :
    ∃ n, f.nodes[i]? = some n ∧ (m = n ∨ ∃ x a b sum, n.op = .unary .relu x ∧
      f.nodes[x]? = some sum ∧ sum.op = .binary .add a b ∧ m = { n with op := .addRelu a b }) := by
  cases mode with
  | train => exact ⟨m, found, .inl rfl⟩
  | infer => exact fuseAddRelu_cases found

theorem Lawful.live_of_fusedFor (lawful : f.Lawful declared σ) {mode : Mode}
    (live : (f.fusedFor mode).1.live[i]? = some true) : f.live[i]? = some true := by
  cases mode with
  | train => exact live
  | infer => exact lawful.live_of_fuseAddRelu live

theorem becomes_of_found {count : Nat} (folded : f.foldConstants σ = .ok (g, count) τ)
    (ordered : Topological g.nodes) {mode : Mode}
    (found : (g.mergeCommon.1.fusedFor mode).1.nodes[i]? = some m) (π : NodeId → NodeId) :
    ∃ n, f.nodes[i]? = some n ∧ f.Becomes (π ∘ g.merging.redirect) n (m.rename π) := by
  obtain ⟨place, length⟩ := foldConstants_inPlace folded
  -- A node of the merged function and where it came from.
  have origin {i : Nat} {m : Node} (found : g.mergeCommon.1.nodes[i]? = some m) :
      ∃ n, f.nodes[i]? = some n ∧ (m = n.rename g.merging.redirect ∨
        n.op.isComputation = true ∧ ∃ t, m = { n with op := .constant t }) := by
    rw [mergeCommon_nodes ordered, List.getElem?_map] at found
    obtain ⟨n', there, rfl⟩ := Option.map_eq_some_iff.1 found
    have inside := (List.getElem?_eq_some_iff.1 there).1
    have old := List.getElem?_eq_getElem (length ▸ inside)
    refine ⟨_, old, ?_⟩
    rcases place i _ n' old there with rfl | ⟨⟨t, rfl⟩, foldable⟩
    · exact .inl rfl
    · exact .inr ⟨by_contra fun stays => foldable fun computes => (stays computes).elim, t, rfl⟩
  obtain ⟨m', there, rfl | ⟨x, a, b, sum, op, source, add, rfl⟩⟩ := fusedFor_cases found
  · obtain ⟨n, old, rfl | ⟨computes, t, rfl⟩⟩ := origin there
    · refine ⟨n, old, ?_⟩
      have both : (n.rename g.merging.redirect).rename π = n.rename (π ∘ g.merging.redirect) := by
        simp [Node.rename, Op.map_map]
      exact both ▸ .kept
    · exact ⟨n, old, .folded computes⟩
  · obtain ⟨n, old, rfl | ⟨-, t, rfl⟩⟩ := origin there
    · obtain ⟨sum', old', rfl | ⟨-, t, rfl⟩⟩ := origin source
      · obtain ⟨x', cut, rfl⟩ := Op.map_eq_unary op
        obtain ⟨a', b', add', rfl, rfl⟩ := Op.map_eq_binary add
        have same := congrArg π ((merging_tidy ordered).1.idem x')
        exact ⟨n, old, .fused cut same old' add'⟩
      · cases add
    · cases op

/-- What is kept after folding, merging and fusion comes from what was there before. -/
theorem exists_comesFrom {count : Nat} (folding : Rewrites declared σ f τ g)
    (folded : f.foldConstants σ = .ok (g, count) τ) (apart : Placeholder.Apart declared)
    (mode : Mode) :
    let fused := (g.mergeCommon.1.fusedFor mode).1
    ∃ place, fused.prune.1.ComesFrom f place (fused.position ∘ g.merging.redirect) ∧
      ∀ j < fused.prune.1.size, fused.live[place j]? = some true := by
  intro fused
  have ordered := folding.lawful.topological
  have merging := (folding.lawful.mergeCommon apart).lawful
  obtain ⟨place, increasing, there⟩ := fused.exists_place
  have live : ∀ j < fused.prune.1.size, fused.live[place j]? = some true := fun j inside =>
    (there j _ (List.getElem?_eq_getElem inside)).1
  refine ⟨place, ⟨increasing, fun j inside => ?_, fun j m found => ?_⟩, live⟩
  · obtain ⟨-, back, -⟩ := there j _ (List.getElem?_eq_getElem inside)
    have own := redirect_of_live ordered (merging.live_of_fusedFor (live j inside))
    rw [Function.comp_apply, own, back]
  · obtain ⟨-, -, n, source, rfl⟩ := there j m found
    exact becomes_of_found folded ordered source _

end Function

open Workspace

/-- What optimizing leaves of a function that was built and optimized in any way. Its nodes stand
in their old order, each reaches a save, and none reads constants only. For training, or if none
was fused before, no two of them do the same with the same operands. Nothing is left only where
folding comes to a value that cannot be counted. -/
theorem optimized_is_normal {w : Workspace} (reached : w.Reachable) {f : Function}
    (member : f ∈ w.module.functions) (mode : Mode) :
    (∃ g counts τ, f.optimize mode w.store = .ok (g, counts) τ ∧
      (∃ place ρ, g.ComesFrom f place ρ) ∧ (∀ i < g.size, g.ReachesSave i) ∧ g.NothingToFold ∧
      (mode = .train ∨ f.Unfused → g.NothingToMerge)) ∨
    f.Overflows (f.optimize mode) w.store := by
  obtain ⟨-, lawful⟩ := reached.lawful.functions f member
  have apart := reached.lawful.apart
  refine (lawful.optimize apart mode).imp_left ?_
  rintro ⟨g, counts, τ, made, -⟩
  obtain ⟨kept, nothing, allLive, toMerge⟩ := lawful.optimize_leaves apart made
  obtain ⟨h, count, folded, folding, rfl, -⟩ := lawful.optimize_eq_ok made
  obtain ⟨place, comes, -⟩ := Function.exists_comesFrom folding folded apart mode
  exact ⟨_, counts, τ, made, ⟨place, _, comes⟩,
    fun i inside => kept.reachesSave (allLive i inside), nothing, toMerge⟩

/-- The dead reader of the sum is gone, and the other nodes moved up. -/
theorem optimized_is_normal_spare :
    ∃ g, Spare.function.optimize .infer Spare.workspace.store =
        .ok (g, { removed := 1 }) Spare.workspace.store ∧
      g.size = 5 ∧ (∃ place ρ, g.ComesFrom Spare.function place ρ) ∧
      (∀ i < 5, g.ReachesSave i) ∧ g.NothingToFold ∧ g.NothingToMerge := by
  have fits : Spare.function.Fits := by decide
  obtain ⟨g, counts, τ, made, comes, reaches, nothing, toMerge⟩ :=
    (optimized_is_normal Spare.reachable Spare.member .infer).resolve_right
      fun past => past.1 fits
  have optimized : ∃ g, Spare.function.optimize .infer Spare.workspace.store =
      .ok (g, { removed := 1 }) Spare.workspace.store ∧ g.size = 5 := ⟨_, rfl, rfl⟩
  obtain ⟨g', made', size⟩ := optimized
  cases made.symm.trans made'
  have unfused : Spare.function.Unfused := by
    unfold Function.Unfused
    decide
  exact ⟨g, made, size, comes, size ▸ reaches, nothing, toMerge (.inr unfused)⟩

end TensorGraph
