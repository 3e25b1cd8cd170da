import TensorGraph.Proofs.Optimize.Again

/-!
What becomes of live nodes. Folding leaves a node in its place or makes it a constant, and then
all that it reads are constants. Merging and pruning send every live node to one that does the
same with what its operands were sent to. So without fusion every live operation is either
folded or still there, and a fused node that cannot be folded never disappears.
-/

namespace TensorGraph

theorem Op.map_map {ι κ ν : Type} (g : ι → κ) (h : κ → ν) (op : Op ι) :
    (op.map g).map h = op.map (h ∘ g) := by
  cases op <;> rfl

variable {declared declared' : List Placeholder} {σ τ : Store} {f g h : Function} {done : List Node}
  {n : Node} {i : Nat} {ρ ρ' : NodeId → NodeId}

/-- Each node is the function's, or it is a constant made from constants. -/
def FoldedInPlace (f : Function) (done : List Node) : Prop :=
  ∀ (i : Nat) (n n' : Node), f.nodes[i]? = some n → done[i]? = some n' →
    n' = n ∨ (∃ t, n' = { n with op := .constant t }) ∧ ¬ n.Unfoldable (done.take i)

theorem FoldedInPlace.run (rest : List Node) {done nodes : List Node} {count total : Nat}
    (before : FoldedInPlace f done) (left : f.nodes.drop done.length = rest)
    (inside : done.length ≤ f.nodes.length)
    (ran : rest.foldlM foldStep (done, count) σ = .ok (nodes, total) τ) :
    FoldedInPlace f nodes ∧ nodes.length = f.nodes.length := by
  induction rest generalizing done count σ with
  | nil =>
    cases ran
    exact ⟨before, Nat.le_antisymm inside (List.drop_eq_nil_iff.1 left)⟩
  | cons n rest ih =>
    rw [List.foldlM_cons] at ran
    obtain ⟨⟨done', count'⟩, υ, stepped, ran⟩ := state_bind_eq_ok.1 ran
    have place : ∃ n', done' = done ++ [n'] ∧
        (n' = n ∨ (∃ t, n' = { n with op := .constant t }) ∧ ¬ n.Unfoldable done) := by
      rcases foldStep_cases stepped with ⟨-, rfl, -⟩ | ⟨-, foldable, t, rfl, -⟩
      · exact ⟨n, rfl, .inl rfl⟩
      · exact ⟨_, rfl, .inr ⟨⟨t, rfl⟩, foldable⟩⟩
    obtain ⟨n', rfl, place⟩ := place
    obtain ⟨found, left⟩ := drop_eq_cons left
    have bound := (List.getElem?_eq_some_iff.1 found).1
    have length : (done ++ [n']).length = done.length + 1 := by simp
    refine ih (fun i m m' old new => ?_) (length ▸ left) (length ▸ bound) ran
    rcases getElem?_concat new with there | ⟨rfl, rfl⟩
    · rw [List.take_append_of_le_length (Nat.le_of_lt (List.getElem?_eq_some_iff.1 there).1)]
      exact before i m m' old there
    · obtain rfl := Option.some.inj (found.symm.trans old)
      simpa using place

namespace Function

theorem foldConstants_inPlace {count : Nat} (folded : f.foldConstants σ = .ok (g, count) τ) :
    FoldedInPlace f g.nodes ∧ g.nodes.length = f.nodes.length := by
  obtain ⟨⟨nodes, total⟩, υ, ran, same⟩ := state_bind_eq_ok.1 folded
  cases same
  have start : FoldedInPlace f [] := fun i n n' _ new => by simp at new
  exact start.run f.nodes rfl (Nat.zero_le _) ran

/-- What a live node reads stays live or becomes a constant. -/
theorem Lawful.live_foldConstants {count : Nat} (lawful : f.Lawful declared σ)
    (kept : g.Lawful declared τ) (folded : f.foldConstants σ = .ok (g, count) τ)
    (live : f.live[i]? = some true) :
    (∃ t, g.nodes[i]?.bind Node.constant? = some t) ∨ g.live[i]? = some true := by
  obtain ⟨place, length⟩ := foldConstants_inPlace folded
  have there {j : Nat} {m : Node} (found : f.nodes[j]? = some m) : ∃ m', g.nodes[j]? = some m' := by
    have inside := (List.getElem?_eq_some_iff.1 found).1
    exact ⟨_, List.getElem?_eq_getElem (length.symm ▸ inside)⟩
  refine lawful.live_induction (P := fun i =>
    (∃ t, g.nodes[i]?.bind Node.constant? = some t) ∨ g.live[i]? = some true)
    (fun i n found save => ?_) (fun j m found _ next x member => ?_) live
  · obtain ⟨n', present⟩ := there found
    rcases place i n n' found present with rfl | ⟨-, foldable⟩
    · exact .inr (live_save present save)
    · exact (foldable fun computation => by simp [Op.isComputation, save] at computation).elim
  · obtain ⟨m', present⟩ := there found
    rcases place j m m' found present with rfl | ⟨-, foldable⟩
    · rcases next with ⟨t, constant⟩ | stays
      · rw [present, Option.bind_some, Node.constant?_eq_some] at constant
        rw [constant] at member
        cases member
      · exact .inr (kept.live_operand present stays member)
    · simp only [Node.Unfoldable, not_forall, not_exists, not_and] at foldable
      obtain ⟨-, constants⟩ := foldable
      refine .inl (Option.ne_none_iff_exists'.1 fun none => constants x member ?_)
      rwa [List.getElem?_take_of_lt (lawful.operand_lt found member)]

/-- Every live node of `f` goes on in `g`, as the same operation on what its operands became. -/
def Carries (ρ : NodeId → NodeId) (f g : Function) : Prop :=
  ∀ (i : Nat) (n : Node), f.nodes[i]? = some n → f.live[i]? = some true →
    g.live[ρ i]? = some true ∧
      ∃ m, g.nodes[ρ i]? = some m ∧ m.op = n.op.map ρ ∧ m.ty = n.ty

theorem Carries.trans (first : f.Carries ρ g) (second : g.Carries ρ' h) :
    f.Carries (ρ' ∘ ρ) h := by
  intro i n found live
  obtain ⟨live', m, present, op, type⟩ := first i n found live
  obtain ⟨live'', m', present', op', type'⟩ := second (ρ i) m present live'
  refine ⟨live'', m', present', ?_, type'.trans type⟩
  rw [op', op, Op.map_map]

theorem Lawful.carries_prune (lawful : f.Lawful declared σ) :
    f.Carries f.position f.prune.1 := by
  intro i n found live
  have present := prune_position found live
  exact ⟨lawful.allLive_prune _ (List.getElem?_eq_some_iff.1 present).1, _, present, rfl, rfl⟩

/-- The representative of a node does the same with the representatives of its operands. -/
theorem Lawful.mergeCommon_representative (lawful : f.Lawful declared σ)
    (apart : Placeholder.Apart declared) :
    ∃ ρ : NodeId → NodeId, ∀ (i : Nat) (n : Node), f.nodes[i]? = some n →
      (n.op.isSave = true → ρ i = i) ∧
      ∃ m, f.mergeCommon.1.nodes[ρ i]? = some m ∧ m.op = n.op.map ρ ∧ m.ty = n.ty := by
  have merged := (lawful.mergeCommon apart).lawful
  obtain ⟨s, tidy, nodes, same⟩ := mergeCommon_tidy lawful.topological
  rw [same] at merged ⊢
  refine ⟨s.redirect, fun i n found => ?_⟩
  have here : s.done[i]? = some (n.rename s.redirect) := by
    rw [nodes, List.getElem?_map, found]
    rfl
  by_cases fixed : s.redirect i = i
  · rw [fixed]
    exact ⟨fun _ => rfl, _, here, rfl, rfl⟩
  · obtain ⟨-, m, key, there, keyed, seen⟩ := tidy.moved i fixed
    obtain rfl := Option.some.inj (here.symm.trans there)
    obtain ⟨-, m', first, keyed'⟩ := tidy.recorded key _ seen
    refine ⟨fun save => ?_, m', first, ?_⟩
    · rw [Node.key?_of_save (by rwa [Node.rename, Op.isSave_map])] at keyed
      cases keyed
    · obtain ⟨op, type⟩ := Node.eq_of_key? apart (merged.nodes _ m' first).declared
        (merged.nodes _ _ here).declared keyed' keyed
      exact ⟨op, type⟩

theorem Lawful.carries_mergeCommon (lawful : f.Lawful declared σ)
    (apart : Placeholder.Apart declared) : ∃ ρ, f.Carries ρ f.mergeCommon.1 := by
  have merged := (lawful.mergeCommon apart).lawful
  obtain ⟨ρ, representative⟩ := lawful.mergeCommon_representative apart
  refine ⟨ρ, fun i n found live => ⟨?_, (representative i n found).2⟩⟩
  refine lawful.live_induction (P := fun i => f.mergeCommon.1.live[ρ i]? = some true)
    (fun i n found save => ?_) (fun j m found _ next x member => ?_) live
  · obtain ⟨fixed, m, present, op, -⟩ := representative i n found
    refine live_save present ?_
    rwa [op, Op.isSave_map]
  · obtain ⟨-, m', present, op, -⟩ := representative j m found
    refine merged.live_operand present next ?_
    rw [op, Op.operands_map]
    exact List.mem_map_of_mem member

theorem Unfused.prune (unfused : f.Unfused) : f.prune.1.Unfused := by
  intro m member
  obtain ⟨j, found⟩ := List.mem_iff_getElem?.1 member
  obtain ⟨i, n, there, -, -, rfl⟩ := prune_getElem? found
  rw [Node.kind, Node.rename, Op.kind_map]
  exact unfused n (List.mem_of_getElem? there)

/-- Every live node of `f` is folded into a constant, or it is still an operation of its own in
`g`: the same one, on what its operands became. -/
def KeptApart (σ : Store) (f g : Function) : Prop :=
  ∃ (h : Function) (count : Nat) (τ : Store) (ρ : NodeId → NodeId),
    f.foldConstants σ = .ok (h, count) τ ∧ ∀ (i : Nat) (n : Node),
      f.nodes[i]? = some n → f.live[i]? = some true →
        (∃ t, h.nodes[i]?.bind Node.constant? = some t) ∨
          ∃ m, g.nodes[ρ i]? = some m ∧ m.op = n.op.map ρ ∧ m.ty = n.ty

theorem Lawful.optimize_train (lawful : f.Lawful declared σ) (apart : Placeholder.Apart declared)
    {counts : PassCounts} (made : f.optimize .train σ = .ok (g, counts) τ) :
    (f.Unfused → g.Unfused) ∧ f.KeptApart σ g := by
  obtain ⟨h, count, folded, folding, rfl, -⟩ := lawful.optimize_eq_ok made
  have merging := (folding.lawful.mergeCommon apart).lawful
  refine ⟨fun unfused => ?_, ?_⟩
  · exact ((unfused.foldConstants folded).mergeCommon folding.lawful.topological).prune
  · obtain ⟨ρ, merged⟩ := folding.lawful.carries_mergeCommon apart
    refine ⟨h, count, τ, h.mergeCommon.1.position ∘ ρ, folded, fun i n found live => ?_⟩
    obtain ⟨place, length⟩ := foldConstants_inPlace folded
    have inside := (List.getElem?_eq_some_iff.1 found).1
    have present := List.getElem?_eq_getElem (length.symm ▸ inside)
    rcases lawful.live_foldConstants folding.lawful folded live with constant | live'
    · exact .inl constant
    · rcases place i n _ found present with same | ⟨⟨t, constant⟩, -⟩
      · rw [same] at present
        exact .inr ((merged.trans merging.carries_prune) i n present live').2
      · exact .inl ⟨t, by rw [present, constant]; rfl⟩

/-- The node is a sum, and a live fused node reads what it read. -/
def GoneIntoFused (f : Function) (i : Nat) : Prop :=
  ∃ (sum m : Node) (a b : NodeId) (r : Nat), f.nodes[i]? = some sum ∧ sum.op = .binary .add a b ∧
    f.fuseAddRelu.1.nodes[r]? = some m ∧ m.op = .addRelu a b ∧
      f.fuseAddRelu.1.live[r]? = some true

/-- What is live before fusion stays live, unless it is a sum that went into a fused node. -/
theorem Lawful.live_fuseAddRelu (lawful : f.Lawful declared σ) (live : f.live[i]? = some true) :
    f.fuseAddRelu.1.live[i]? = some true ∨ f.GoneIntoFused i := by
  have kept := lawful.fuseAddRelu.lawful
  have there {j : Nat} {n : Node} (found : f.nodes[j]? = some n) :
      f.fuseAddRelu.1.nodes[j]? = some ((f.fused? n).getD n) := by
    rw [Function.fuseAddRelu, List.getElem?_map, found]
    rfl
  refine lawful.live_induction
    (P := fun i => f.fuseAddRelu.1.live[i]? = some true ∨ f.GoneIntoFused i)
    (fun i n found save => ?_) (fun j n found _ next x member => ?_) live
  · cases fused : f.fused? n with
    | none => exact .inl (live_save (by rw [there found, fused, Option.getD_none]) save)
    | some n' =>
      obtain ⟨y, a, b, sum, op, -⟩ := fused?_eq_some fused
      rw [op] at save
      cases save
  · rcases next with stays | ⟨sum, m, a, b, r, source, add, present, op, stays⟩
    · cases fused : f.fused? n with
      | none =>
        refine .inl (kept.live_operand (there found) stays ?_)
        rwa [fused, Option.getD_none]
      | some n' =>
        obtain ⟨y, a, b, sum, op, source, add, rfl⟩ := fused?_eq_some fused
        rw [op] at member
        obtain rfl := List.mem_singleton.1 member
        refine .inr ⟨sum, _, a, b, j, source, add, there found, ?_, stays⟩
        rw [fused, Option.getD_some]
    · obtain rfl := Option.some.inj (found.symm.trans source)
      refine .inl (kept.live_operand present stays ?_)
      rw [op]
      rwa [add] at member

/-- A fused node that stays: it is live, and neither it nor a node before it can be folded. -/
def HoldsFused (f : Function) : Prop :=
  ∃ (i : Nat) (n : Node), f.nodes[i]? = some n ∧ n.kind = .addRelu ∧ f.live[i]? = some true ∧
    ∀ m ∈ f.nodes.take (i + 1), m.Unfoldable f.nodes

theorem holdsFused_of_optimized (nothing : f.NothingToFold) (allLive : f.AllLive)
    (fused : ¬ f.Unfused) : f.HoldsFused := by
  simp only [Unfused, not_forall, not_not] at fused
  obtain ⟨n, member, kind⟩ := fused
  obtain ⟨i, found⟩ := List.mem_iff_getElem?.1 member
  exact ⟨i, n, found, kind, allLive i (List.getElem?_eq_some_iff.1 found).1,
    fun m early => nothing m (List.mem_of_mem_take early)⟩

theorem Lawful.foldConstants_stays {count : Nat} (lawful : f.Lawful declared σ)
    (folded : f.foldConstants σ = .ok (g, count) τ)
    (unfoldable : ∀ m ∈ f.nodes.take (i + 1), m.Unfoldable f.nodes) :
    ∀ (j : Nat) (n : Node), j ≤ i → f.nodes[j]? = some n → g.nodes[j]? = some n := by
  obtain ⟨place, length⟩ := foldConstants_inPlace folded
  intro j
  induction j using Nat.strongRecOn with
  | ind j earlier =>
    intro n le found
    have inside := (List.getElem?_eq_some_iff.1 found).1
    have present := List.getElem?_eq_getElem (length.symm ▸ inside)
    rcases place j n _ found present with same | ⟨-, foldable⟩
    · rw [present, same]
    · refine (foldable fun computation => ?_).elim
      have early : n ∈ f.nodes.take (i + 1) :=
        List.mem_of_getElem? (by rw [List.getElem?_take_of_lt (Nat.lt_succ_of_le le), found])
      obtain ⟨x, member, other⟩ := unfoldable n early computation
      have before : x < j := lawful.operand_lt found member
      have source := List.getElem?_eq_getElem (Nat.lt_trans before inside)
      refine ⟨x, member, ?_⟩
      rw [List.getElem?_take_of_lt before,
        earlier x before _ (Nat.le_trans (Nat.le_of_lt before) le) source, ← source, other]

theorem Lawful.not_unfused_prune (lawful : f.Lawful declared σ) (found : f.nodes[i]? = some n)
    (kind : n.kind = .addRelu) (live : f.live[i]? = some true) : ¬ f.prune.1.Unfused := by
  intro unfused
  obtain ⟨-, m, present, op, -⟩ := lawful.carries_prune i n found live
  refine unfused m (List.mem_of_getElem? present) ?_
  rwa [Node.kind, op, Op.kind_map]

theorem HoldsFused.optimize (holds : f.HoldsFused) (lawful : f.Lawful declared σ)
    (apart : Placeholder.Apart declared) {mode : Mode} {counts : PassCounts}
    (made : f.optimize mode σ = .ok (g, counts) τ) : ¬ g.Unfused := by
  obtain ⟨h, count, folded, folding, rfl, -⟩ := lawful.optimize_eq_ok made
  have merging := (folding.lawful.mergeCommon apart).lawful
  obtain ⟨i, n, found, kind, live, unfoldable⟩ := holds
  have present := lawful.foldConstants_stays folded unfoldable i n (Nat.le_refl i) found
  have live₁ : h.live[i]? = some true := by
    rcases lawful.live_foldConstants folding.lawful folded live with ⟨t, constant⟩ | live₁
    · rw [present, Option.bind_some, Node.constant?_eq_some] at constant
      rw [Node.kind, constant] at kind
      cases kind
    · exact live₁
  obtain ⟨ρ, merged⟩ := folding.lawful.carries_mergeCommon apart
  obtain ⟨live₂, m, present₂, op, -⟩ := merged i n present live₁
  have kind₂ : m.kind = .addRelu := by rwa [Node.kind, op, Op.kind_map]
  cases mode with
  | train => exact merging.not_unfused_prune present₂ kind₂ live₂
  | infer =>
    have stays : h.mergeCommon.1.fused? m = none := by
      refine Option.eq_none_iff_forall_ne_some.2 fun m' fused => ?_
      obtain ⟨y, a, b, sum, cut, -⟩ := fused?_eq_some fused
      rw [Node.kind, cut] at kind₂
      cases kind₂
    have present₃ : h.mergeCommon.1.fuseAddRelu.1.nodes[ρ i]? = some m := by
      rw [Function.fuseAddRelu, List.getElem?_map, present₂, Option.map_some, stays,
        Option.getD_none]
    rcases merging.live_fuseAddRelu live₂ with live₃ | ⟨sum, m', a, b, r, source, add, -⟩
    · exact merging.fuseAddRelu.lawful.not_unfused_prune present₃ kind₂ live₃
    · obtain rfl := Option.some.inj (present₂.symm.trans source)
      rw [Node.kind, add] at kind₂
      cases kind₂

theorem Lawful.live_append (lawful : f.Lawful declared σ) (kept : g.Lawful declared' τ)
    (nodes : g.nodes = f.nodes ++ [n]) (live : f.live[i]? = some true) :
    g.live[i]? = some true := by
  have there {j : Nat} {m : Node} (found : f.nodes[j]? = some m) : g.nodes[j]? = some m := by
    rw [nodes, List.getElem?_append_left (List.getElem?_eq_some_iff.1 found).1, found]
  refine lawful.live_induction (P := fun i => g.live[i]? = some true)
    (fun i m found save => live_save (there found) save)
    (fun j m found _ next x member => kept.live_operand (there found) next member) live

theorem HoldsFused.append (holds : f.HoldsFused) (lawful : f.Lawful declared σ)
    (kept : g.Lawful declared' τ) (nodes : g.nodes = f.nodes ++ [n]) : g.HoldsFused := by
  obtain ⟨i, m, found, kind, live, unfoldable⟩ := holds
  have inside := (List.getElem?_eq_some_iff.1 found).1
  have before {j : Nat} (less : j < f.nodes.length) : g.nodes[j]? = f.nodes[j]? := by
    rw [nodes, List.getElem?_append_left less]
  refine ⟨i, m, by rw [before inside, found], kind, lawful.live_append kept nodes live, ?_⟩
  rw [nodes, List.take_append_of_le_length inside, ← nodes]
  intro other early computation
  obtain ⟨x, member, foldless⟩ := unfoldable other early computation
  obtain ⟨j, there⟩ := List.mem_iff_getElem?.1 (List.mem_of_mem_take early)
  have less : x < f.nodes.length :=
    Nat.lt_trans (lawful.operand_lt there member) (List.getElem?_eq_some_iff.1 there).1
  exact ⟨x, member, by rw [before less, foldless]⟩

end Function
end TensorGraph
