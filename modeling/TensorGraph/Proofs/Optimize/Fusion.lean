import TensorGraph.Optimize.Fusion
import TensorGraph.Proofs.Optimize.Rewriting

/-!
Fusion. A cut-off sum adds and cuts off just as the two nodes it stands for, coercing after
each, so the fused node yields the same value. How often the sum is read does not matter for
that.
-/

namespace TensorGraph

variable {declared : List Placeholder} {σ : Store} {f : Function} {n n' : Node} {i : Nat}

theorem Function.fused?_eq_some (fused : f.fused? n = some n') :
    ∃ x a b sum, n.op = .unary .relu x ∧ f.nodes[x]? = some sum ∧ sum.op = .binary .add a b ∧
      n' = { n with op := .addRelu a b } := by
  unfold fused? at fused
  split at fused
  next x op =>
    split at fused
    next a b source =>
      obtain ⟨sum, found, add⟩ := Option.map_eq_some_iff.1 source
      split at fused
      · exact ⟨x, a, b, sum, op, found, add, (Option.some.inj fused).symm⟩
      · cases fused
    next => cases fused
  next => cases fused

/-- After fusion a node is what it was, or it is a cut-off that now reads what its sum read. -/
theorem Function.fuseAddRelu_cases (found : f.fuseAddRelu.1.nodes[i]? = some n') :
    ∃ n, f.nodes[i]? = some n ∧ (n' = n ∨ ∃ x a b sum, n.op = .unary .relu x ∧
      f.nodes[x]? = some sum ∧ sum.op = .binary .add a b ∧ n' = { n with op := .addRelu a b }) := by
  rw [fuseAddRelu, List.getElem?_map] at found
  obtain ⟨n, there, same⟩ := Option.map_eq_some_iff.1 found
  refine ⟨n, there, ?_⟩
  cases fused : f.fused? n with
  | none =>
    rw [fused, Option.getD_none] at same
    exact .inl same.symm
  | some m =>
    rw [fused, Option.getD_some] at same
    exact .inr (same ▸ fused?_eq_some fused)

theorem Replaces.fused (lawful : f.Lawful declared σ) (found : f.nodes[i]? = some n)
    (fused : f.fused? n = some n') : Replaces declared σ f σ i n n' := by
  obtain ⟨x, a, b, sum, op, source, add, rfl⟩ := Function.fused?_eq_some fused
  have computes : n.op.Computes := by rw [op]; trivial
  have node := lawful.nodes i n found
  have later : x < i := lawful.operand_lt found (by rw [op]; exact List.mem_singleton_self x)
  have first : a < x := lawful.operand_lt source (by rw [add]; exact List.mem_cons_self)
  have second : b < x := lawful.operand_lt source (by rw [add]; simp [Op.operands])
  have typed : (Op.addRelu a b).HasType (f.types.take i) n.ty := by
    have cut := node.typed
    have added := lawful.typed source
    rw [op] at cut
    rw [add] at added
    cases cut with
    | unary operand =>
      rw [List.getElem?_take_of_lt later, Function.types_getElem?, source] at operand
      rw [← Option.some.inj operand]
      cases added with
      | binary left right =>
        refine .addRelu ?_ ?_
        · rw [List.getElem?_take_of_lt (Nat.lt_trans first later), left]
        · rw [List.getElem?_take_of_lt (Nat.lt_trans second later), right]
  refine ⟨⟨typed, node.rank_le, fun p named => (by cases named),
    fun t constant => (by cases constant)⟩,
    rfl, ?_, ?_, fun load val evaluates => ?_, fun load val evaluates => ?_⟩
  · exact (Op.target?_of_computes computes).symm
  · exact (Op.source?_of_computes computes).symm
  · have cut := evaluates i n found
    have added := evaluates x sum source
    rw [op] at cut
    rw [add] at added
    obtain ⟨args, v, values, made, result⟩ := cut.of_computes trivial
    obtain ⟨args', u, values', made', result'⟩ := added.of_computes trivial
    obtain ⟨u', rfl, value⟩ := Op.values_one values
    obtain ⟨l, r, rfl, left, right⟩ := Op.values_two values'
    obtain rfl := Option.some.inj (result'.symm.trans value)
    rw [result]
    have both : (Op.addRelu a b).operands.map val = [l, r].map some := by
      simp [Op.operands, left, right]
    have steps : Value.addRelu l r = .ok v := bind_eq_ok.2 ⟨u, made', made⟩
    exact .computed trivial both steps
  · rw [Node.saved?_of_computes computes]
    rfl

theorem Function.Lawful.fuseAddRelu (lawful : f.Lawful declared σ) :
    Rewrites declared σ f σ f.fuseAddRelu.1 := by
  refine .of_replaces lawful (.refl σ) rfl (List.length_map _) fun i n n' old new => ?_
  rw [Function.fuseAddRelu, List.getElem?_map, old] at new
  cases fused : f.fused? n with
  | none =>
    simp only [Option.map_some, fused, Option.getD_none, Option.some.injEq] at new
    exact new ▸ .refl lawful old
  | some m =>
    simp only [Option.map_some, fused, Option.getD_some, Option.some.injEq] at new
    exact new ▸ .fused lawful old fused

end TensorGraph
