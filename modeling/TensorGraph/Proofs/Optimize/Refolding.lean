import TensorGraph.Proofs.Optimize.Folding
import TensorGraph.Proofs.Optimize.Fusion
import TensorGraph.Proofs.Optimize.Liveness

/-!
What folding leaves: computations that read something other than a constant. Fusion and pruning
leave no others, so there is never anything to fold a second time.
-/

namespace TensorGraph

theorem mapM_eq_none {α β : Type} {f : α → Option β} {xs : List α} :
    xs.mapM f = none ↔ ∃ x ∈ xs, f x = none := by
  induction xs with
  | nil => simp
  | cons x xs ih => cases head : f x <;> cases rest : xs.mapM f <;> simp_all

@[simp] theorem Node.constant?_rename (n : Node) (g : NodeId → NodeId) :
    (n.rename g).constant? = n.constant? := by
  obtain ⟨name, op, ty⟩ := n
  cases op <;> rfl

@[simp] theorem Op.isComputation_map {ι κ : Type} (g : ι → κ) (op : Op ι) :
    (op.map g).isComputation = op.isComputation := by
  cases op <;> rfl

/-- If the node computes something, not all it reads are constants of `nodes`. -/
def Node.Unfoldable (nodes : List Node) (n : Node) : Prop :=
  n.op.isComputation = true → ∃ x ∈ n.op.operands, nodes[x]?.bind Node.constant? = none

def Function.NothingToFold (f : Function) : Prop := ∀ n ∈ f.nodes, n.Unfoldable f.nodes

variable {declared : List Placeholder} {σ τ : Store} {f : Function} {done : List Node} {n : Node}
  {k : Nat}

theorem Node.Unfoldable.take (unfoldable : n.Unfoldable done) (k : Nat) :
    n.Unfoldable (done.take k) := by
  intro computation
  obtain ⟨x, member, other⟩ := unfoldable computation
  refine ⟨x, member, ?_⟩
  rw [List.getElem?_take]
  split
  · exact other
  · rfl

theorem Node.Unfoldable.of_take (unfoldable : n.Unfoldable (done.take k))
    (ordered : ∀ x : Nat, x ∈ n.op.operands → x < k) : n.Unfoldable done := by
  intro computation
  obtain ⟨x, member, other⟩ := unfoldable computation
  rw [List.getElem?_take_of_lt (ordered x member)] at other
  exact ⟨x, member, other⟩

theorem foldNode_cases {r : Option Node} (made : foldNode done n σ = .ok r τ) :
    (r = none ∧ n.Unfoldable done) ∨
      n.op.isComputation = true ∧ ¬ n.Unfoldable done ∧
        ∃ t, r = some { n with op := .constant t } := by
  unfold foldNode at made
  by_cases computation : n.op.isComputation
  · rw [if_pos computation] at made
    cases constants : n.op.operands.mapM fun x => done[x]?.bind Node.constant? with
    | none =>
      rw [constants] at made
      cases made
      exact .inl ⟨rfl, fun _ => mapM_eq_none.1 constants⟩
    | some args =>
      rw [constants] at made
      obtain ⟨t, υ, -, same⟩ := state_bind_eq_ok.1 made
      cases same
      refine .inr ⟨computation, fun unfoldable => ?_, t, rfl⟩
      cases (mapM_eq_none.2 (unfoldable computation)).symm.trans constants
  · rw [if_neg computation] at made
    cases made
    exact .inl ⟨rfl, fun computation' => (computation computation').elim⟩

theorem foldNode_of_unfoldable (unfoldable : n.Unfoldable done) (σ : Store) :
    foldNode done n σ = .ok none σ := by
  unfold foldNode
  by_cases computation : n.op.isComputation
  · rw [if_pos computation, mapM_eq_none.2 (unfoldable computation)]
    rfl
  · rw [if_neg computation]
    rfl

theorem foldStep_cases {count count' : Nat} {done' : List Node}
    (stepped : foldStep (done, count) n σ = .ok (done', count') τ) :
    (n.Unfoldable done ∧ done' = done ++ [n] ∧ count' = count) ∨
      n.op.isComputation = true ∧ ¬ n.Unfoldable done ∧
        ∃ t, done' = done ++ [{ n with op := .constant t }] ∧ count' = count + 1 := by
  obtain ⟨r, υ, made, rest⟩ := state_bind_eq_ok.1 stepped
  rcases foldNode_cases made with ⟨rfl, unfoldable⟩ | ⟨computes, foldable, t, rfl⟩
  · cases rest
    exact .inl ⟨unfoldable, rfl, rfl⟩
  · cases rest
    exact .inr ⟨computes, foldable, t, rfl, rfl⟩

theorem foldStep_stays (unfoldable : n.Unfoldable done) (count : Nat) (σ : Store) :
    foldStep (done, count) n σ = .ok (done ++ [n], count) σ :=
  state_bind_of_ok (foldNode_of_unfoldable unfoldable σ)

/-- What holds of the nodes that are done: each is one of the function's or a constant, and is
unfoldable after those before it. -/
structure FoldedFirst (f : Function) (done : List Node) : Prop where
  unfoldable : ∀ (i : Nat) (n : Node), done[i]? = some n → n.Unfoldable (done.take i)
  origin : ∀ n ∈ done, n ∈ f.nodes ∨ ∃ t, n.op = .constant t

theorem FoldedFirst.concat (before : FoldedFirst f done) (next : n.Unfoldable done)
    (origin : n ∈ f.nodes ∨ ∃ t, n.op = .constant t) : FoldedFirst f (done ++ [n]) := by
  refine ⟨fun i m found => ?_, fun m member => ?_⟩
  · rcases getElem?_concat found with old | ⟨rfl, rfl⟩
    · rw [List.take_append_of_le_length (Nat.le_of_lt (List.getElem?_eq_some_iff.1 old).1)]
      exact before.unfoldable i m old
    · rwa [List.take_left']
      rfl
  · rcases List.mem_append.1 member with old | new
    · exact before.origin m old
    · rwa [List.mem_singleton.1 new]

theorem FoldedFirst.run (rest : List Node) (own : ∀ n ∈ rest, n ∈ f.nodes) {count total : Nat}
    {nodes : List Node} (before : FoldedFirst f done)
    (ran : rest.foldlM foldStep (done, count) σ = .ok (nodes, total) τ) :
    FoldedFirst f nodes := by
  induction rest generalizing done count σ with
  | nil =>
    cases ran
    exact before
  | cons n rest ih =>
    rw [List.foldlM_cons] at ran
    obtain ⟨⟨done', count'⟩, υ, stepped, ran⟩ := state_bind_eq_ok.1 ran
    have later : ∀ m ∈ rest, m ∈ f.nodes := fun m member => own m (List.mem_cons_of_mem n member)
    rcases foldStep_cases stepped with ⟨unfoldable, rfl, -⟩ | ⟨-, -, t, rfl, -⟩
    · exact ih later (before.concat unfoldable (.inl (own n List.mem_cons_self))) ran
    · have unfoldable : Node.Unfoldable done { n with op := .constant t } :=
        fun computation => (nomatch computation)
      exact ih later (before.concat unfoldable (.inr ⟨t, rfl⟩)) ran

namespace Function

theorem foldedFirst_foldConstants {g : Function} {count : Nat}
    (folded : f.foldConstants σ = .ok (g, count) τ) : FoldedFirst f g.nodes := by
  obtain ⟨⟨nodes, total⟩, υ, ran, same⟩ := state_bind_eq_ok.1 folded
  cases same
  have start : FoldedFirst f [] :=
    ⟨fun i n found => by simp at found, fun n member => nomatch member⟩
  exact start.run f.nodes (fun n member => member) ran

theorem nothingToFold_foldConstants {g : Function} {count : Nat} (lawful : g.Lawful declared τ)
    (folded : f.foldConstants σ = .ok (g, count) τ) : g.NothingToFold := by
  intro n member
  obtain ⟨i, found⟩ := List.mem_iff_getElem?.1 member
  exact ((foldedFirst_foldConstants folded).unfoldable i n found).of_take fun x read =>
    lawful.operand_lt found read

theorem NothingToFold.run (nothing : f.NothingToFold) (σ : Store) (rest : List Node) {k : Nat}
    (left : f.nodes.drop k = rest) :
    rest.foldlM foldStep (f.nodes.take k, 0) σ = .ok (f.nodes, 0) σ := by
  induction rest generalizing k with
  | nil =>
    rw [List.take_of_length_le (List.drop_eq_nil_iff.1 left)]
    rfl
  | cons n rest ih =>
    obtain ⟨found, left⟩ := drop_eq_cons left
    have unfoldable := (nothing n (List.mem_of_getElem? found)).take k
    have next : f.nodes.take k ++ [n] = f.nodes.take (k + 1) := by
      rw [List.take_add_one, found]
      rfl
    rw [List.foldlM_cons, state_bind_of_ok (foldStep_stays unfoldable 0 σ), next]
    exact ih left

theorem NothingToFold.foldConstants (nothing : f.NothingToFold) (σ : Store) :
    f.foldConstants σ = .ok (f, 0) σ :=
  state_bind_of_ok (nothing.run σ f.nodes (k := 0) rfl)

theorem fuseAddRelu_constant? (f : Function) (x : NodeId) :
    f.fuseAddRelu.1.nodes[x]?.bind Node.constant? = f.nodes[x]?.bind Node.constant? := by
  rw [fuseAddRelu, List.getElem?_map]
  cases f.nodes[x]? with
  | none => rfl
  | some n =>
    cases fused : f.fused? n with
    | none => simp [fused]
    | some m =>
      obtain ⟨y, a, b, sum, op, -, -, rfl⟩ := fused?_eq_some fused
      simp [fused, Node.constant?, op]

/-- A fused node reads what the sum read. -/
theorem NothingToFold.fuseAddRelu (nothing : f.NothingToFold) :
    f.fuseAddRelu.1.NothingToFold := by
  intro m member computation
  simp only [fuseAddRelu_constant?]
  obtain ⟨i, there⟩ := List.mem_iff_getElem?.1 member
  obtain ⟨n, found, rfl | ⟨x, a, b, sum, -, source, add, rfl⟩⟩ := fuseAddRelu_cases there
  · exact nothing m (List.mem_of_getElem? found) computation
  · have adds : sum.op.isComputation = true := by rw [add]; rfl
    obtain ⟨y, read, other⟩ := nothing sum (List.mem_of_getElem? source) adds
    rw [add] at read
    exact ⟨y, read, other⟩

theorem NothingToFold.prune (nothing : f.NothingToFold) (lawful : f.Lawful declared σ) :
    f.prune.1.NothingToFold := by
  intro m member computation
  obtain ⟨j, there⟩ := List.mem_iff_getElem?.1 member
  obtain ⟨i, n, found, live, -, rfl⟩ := prune_getElem? there
  rw [Node.rename, Op.isComputation_map] at computation
  obtain ⟨x, read, other⟩ := nothing n (List.mem_of_getElem? found) computation
  have stays := lawful.live_operand found live read
  obtain ⟨source, present⟩ := exists_of_live stays
  refine ⟨f.position x, ?_, ?_⟩
  · rw [Node.rename, Op.operands_map]
    exact List.mem_map_of_mem read
  · rw [prune_position present stays, Option.bind_some, Node.constant?_rename]
    rwa [present] at other

end Function
end TensorGraph
