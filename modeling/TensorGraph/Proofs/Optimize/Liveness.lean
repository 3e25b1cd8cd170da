import TensorGraph.Proofs.Optimize.Pruning

/-!
Which nodes are live, and what pruning leaves. A node is live when it is a save or a live node
reads it. Every node of a pruned function is live, so pruning it again changes nothing.
-/

namespace TensorGraph

theorem reader_of_read {id : Nat} {nodes : List Node} {x : NodeId}
    (read : x ∈ (liveNodes id nodes).2) :
    ∃ (j : Nat) (m : Node), nodes[j]? = some m ∧
      (liveNodes id nodes).1[j]? = some true ∧ x ∈ m.op.operands := by
  induction nodes generalizing id with
  | nil => simp [liveNodes] at read
  | cons n rest ih =>
    have later (read : x ∈ (liveNodes (id + 1) rest).2) :
        ∃ (j : Nat) (m : Node), (n :: rest)[j]? = some m ∧
          (liveNodes id (n :: rest)).1[j]? = some true ∧ x ∈ m.op.operands := by
      obtain ⟨j, m, found, live, member⟩ := ih read
      rw [liveNodes_cons]
      exact ⟨j + 1, m, found, live, member⟩
    rw [liveNodes_cons] at read
    dsimp only at read
    split at read
    next live =>
      rcases List.mem_append.1 read with own | read
      · refine ⟨0, n, rfl, ?_, own⟩
        rw [liveNodes_cons, live]
        rfl
      · exact later read
    next => exact later read

theorem live_cases {id : Nat} {nodes : List Node} {i : Nat} {n : Node}
    (found : nodes[i]? = some n) (live : (liveNodes id nodes).1[i]? = some true) :
    n.op.isSave = true ∨ ∃ (j : Nat) (m : Node), nodes[j]? = some m ∧
      (liveNodes id nodes).1[j]? = some true ∧ id + i ∈ m.op.operands := by
  induction nodes generalizing id i with
  | nil => simp at found
  | cons m rest ih =>
    rw [liveNodes_cons] at live ⊢
    cases i with
    | zero =>
      obtain rfl := Option.some.inj found
      have here : isLive id m rest = true := Option.some.inj live
      rw [isLive, Bool.or_eq_true] at here
      rcases here with save | read
      · exact .inl save
      · obtain ⟨j, reader, there, stays, member⟩ := reader_of_read (List.mem_of_elem_eq_true read)
        exact .inr ⟨j + 1, reader, there, stays, member⟩
    | succ i =>
      rcases @ih (id + 1) i found live with save | ⟨j, reader, there, stays, member⟩
      · exact .inl save
      · refine .inr ⟨j + 1, reader, there, stays, ?_⟩
        rwa [Nat.add_right_comm, Nat.add_assoc] at member

namespace Function

variable {declared : List Placeholder} {σ : Store} {f : Function} {n : Node} {i : Nat}

theorem length_live (f : Function) : f.live.length = f.nodes.length := length_liveNodes 0 f.nodes

theorem exists_of_live (live : f.live[i]? = some true) : ∃ n, f.nodes[i]? = some n := by
  have inside := (List.getElem?_eq_some_iff.1 live).1
  rw [length_live] at inside
  exact ⟨_, List.getElem?_eq_getElem inside⟩

/-- What holds of saves, and of what a live node reads if it holds of the reader, holds of every
live node. The induction is on how many nodes follow. -/
theorem Lawful.live_induction (lawful : f.Lawful declared σ) {P : NodeId → Prop}
    (saves : ∀ (i : Nat) (n : Node), f.nodes[i]? = some n → n.op.isSave = true → P i)
    (reads : ∀ (j : Nat) (m : Node), f.nodes[j]? = some m → f.live[j]? = some true → P j →
      ∀ x ∈ m.op.operands, P x)
    (live : f.live[i]? = some true) : P i := by
  generalize after : f.nodes.length - i = k
  induction k using Nat.strongRecOn generalizing i with
  | ind k ih =>
    obtain ⟨n, found⟩ := exists_of_live live
    rcases live_cases found live with save | ⟨j, m, there, stays, member⟩
    · exact saves i n found save
    · rw [Nat.zero_add] at member
      have later : i < j := lawful.operand_lt there member
      have inside := (List.getElem?_eq_some_iff.1 there).1
      exact reads j m there stays (ih (f.nodes.length - j) (by omega) stays rfl) i member

theorem position_injective {x y : Nat} (left : f.live[x]? = some true)
    (right : f.live[y]? = some true) (same : f.position x = f.position y) : x = y := by
  rcases Nat.lt_trichotomy x y with less | equal | more
  · exact (Nat.ne_of_lt (position_lt left less) same).elim
  · exact equal
  · exact (Nat.ne_of_gt (position_lt right more) same).elim

/-- Pruning would drop nothing. -/
def AllLive (f : Function) : Prop := ∀ i < f.nodes.length, f.live[i]? = some true

theorem Lawful.allLive_prune (lawful : f.Lawful declared σ) : f.prune.1.AllLive := by
  have pruned := lawful.prune.lawful
  have moved {i : Nat} (live : f.live[i]? = some true) :
      f.prune.1.live[f.position i]? = some true := by
    refine lawful.live_induction (P := fun i => f.prune.1.live[f.position i]? = some true)
      (fun i n found save => ?_) (fun j m found live next x member => ?_) live
    · refine live_save (prune_position found (live_save found save)) ?_
      rwa [Node.rename, Op.isSave_map]
    · refine pruned.live_operand (prune_position found live) next ?_
      rw [Node.rename, Op.operands_map]
      exact List.mem_map_of_mem member
  intro j inside
  obtain ⟨i, n, -, live, rfl, -⟩ := prune_getElem? (List.getElem?_eq_getElem inside)
  exact moved live

theorem kept_all {α : Type} (xs : List α) :
    kept xs (List.replicate xs.length true) = xs.map fun x => (x, true) := by
  induction xs with
  | nil => rfl
  | cons x xs ih => rw [List.length_cons, List.replicate_succ, kept_cons, if_pos rfl, ih]; rfl

theorem AllLive.live_eq (all : f.AllLive) : f.live = List.replicate f.nodes.length true := by
  refine List.eq_replicate_iff.2 ⟨f.length_live, fun b member => ?_⟩
  obtain ⟨i, found⟩ := List.mem_iff_getElem?.1 member
  have inside := (List.getElem?_eq_some_iff.1 found).1
  rw [length_live] at inside
  exact Option.some.inj (found.symm.trans (all i inside))

theorem Lawful.prune_of_allLive (lawful : f.Lawful declared σ) (all : f.AllLive) :
    f.prune = (f, 0) := by
  have stays : ∀ x < f.nodes.length, f.position x = x := by
    intro x inside
    rw [position, all.live_eq, List.take_replicate, List.count_replicate_self]
    exact Nat.min_eq_left (Nat.le_of_lt inside)
  have nodes : f.prune.1.nodes = f.nodes := by
    rw [prune_nodes, all.live_eq, kept_all, List.map_map]
    refine (List.map_congr_left fun n member => ?_).trans (List.map_id _)
    obtain ⟨i, found⟩ := List.mem_iff_getElem?.1 member
    refine Node.rename_self fun x member => stays x ?_
    exact Nat.lt_trans (lawful.operand_lt found member) (List.getElem?_eq_some_iff.1 found).1
  have same : f.prune.1 = { f with nodes := f.prune.1.nodes } := rfl
  have dropped : f.prune.2 = f.size - f.prune.1.size := rfl
  rw [nodes] at same
  exact Prod.ext same (by rw [dropped, same, Nat.sub_self])

end Function
end TensorGraph
