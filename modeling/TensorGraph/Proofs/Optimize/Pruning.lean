import TensorGraph.Optimize.Pruning
import TensorGraph.Proofs.Optimize.Rewriting

/-!
Pruning. A kept node reads only kept nodes, and moves to the number of nodes kept before it;
its value is the value it had. Saves are always kept.
-/

namespace TensorGraph

section

variable {α β : Type} {xs : List α} {keep : List Bool} {i j : Nat} {x : α}

def kept (xs : List α) (keep : List Bool) : List (α × Bool) := (xs.zip keep).filter (·.2)

@[simp] theorem kept_cons (x : α) (xs : List α) (b : Bool) (keep : List Bool) :
    kept (x :: xs) (b :: keep) = if b then (x, b) :: kept xs keep else kept xs keep := by
  cases b <;> rfl

theorem kept_getElem? (found : xs[i]? = some x) (stays : keep[i]? = some true) :
    (kept xs keep)[(keep.take i).count true]? = some (x, true) := by
  induction xs generalizing keep i with
  | nil => simp at found
  | cons y ys ih =>
    cases keep with
    | nil => simp at stays
    | cons b keep =>
      cases i with
      | zero =>
        obtain rfl := Option.some.inj found
        obtain rfl := Option.some.inj stays
        rfl
      | succ i =>
        have rest := ih (i := i) found stays
        cases b <;> simpa using rest

theorem getElem?_kept {y : α × Bool} (found : (kept xs keep)[j]? = some y) :
    ∃ i, xs[i]? = some y.1 ∧ keep[i]? = some true ∧ (keep.take i).count true = j := by
  induction xs generalizing keep j with
  | nil => simp [kept] at found
  | cons x xs ih =>
    cases keep with
    | nil => simp [kept] at found
    | cons b keep =>
      cases b with
      | false =>
        obtain ⟨i, source, stays, place⟩ := @ih keep j (by simpa using found)
        exact ⟨i + 1, source, stays, by simpa using place⟩
      | true =>
        cases j with
        | zero =>
          rw [kept_cons, if_pos rfl] at found
          obtain rfl := Option.some.inj found
          exact ⟨0, rfl, rfl, rfl⟩
        | succ j =>
          obtain ⟨i, source, stays, place⟩ := @ih keep j (by simpa using found)
          exact ⟨i + 1, source, stays, by simpa using place⟩

theorem count_take_lt (stays : keep[i]? = some true) (later : i < j) :
    (keep.take i).count true < (keep.take j).count true := by
  have next : (keep.take (i + 1)).count true = (keep.take i).count true + 1 := by
    rw [List.take_add_one, stays, List.count_append]
    rfl
  have more : (keep.take (i + 1)).count true ≤ (keep.take j).count true :=
    (List.take_sublist_take_left later).count_le true
  omega

theorem filterMap_kept {F : α → Option β} (length : keep.length = xs.length)
    (dropped : ∀ (i : Nat) (x : α), xs[i]? = some x → keep[i]? = some false → F x = none) :
    (kept xs keep).filterMap (fun y => F y.1) = xs.filterMap F := by
  induction xs generalizing keep with
  | nil => rfl
  | cons x xs ih =>
    cases keep with
    | nil => simp at length
    | cons b keep =>
      have rest := @ih keep (by simpa using length) fun i => dropped (i + 1)
      cases b with
      | false =>
        rw [List.filterMap_cons, dropped 0 x rfl rfl]
        exact rest
      | true =>
        rw [kept_cons, if_pos rfl, List.filterMap_cons, List.filterMap_cons, rest]

end

/-- Whether a node at position `id` is live, given those after it. -/
def isLive (id : NodeId) (n : Node) (rest : List Node) : Bool :=
  n.op.isSave || (liveNodes (id + 1) rest).2.contains id

theorem liveNodes_cons (id : NodeId) (n : Node) (rest : List Node) :
    liveNodes id (n :: rest) =
      (isLive id n rest :: (liveNodes (id + 1) rest).1,
        if isLive id n rest then n.op.operands ++ (liveNodes (id + 1) rest).2
        else (liveNodes (id + 1) rest).2) := by
  rw [liveNodes, isLive]
  obtain ⟨flags, read⟩ := liveNodes (id + 1) rest
  dsimp only
  cases n.op.isSave || read.contains id <;> rfl

theorem length_liveNodes (id : NodeId) (nodes : List Node) :
    (liveNodes id nodes).1.length = nodes.length := by
  induction nodes generalizing id with
  | nil => rfl
  | cons n rest ih => rw [liveNodes_cons, List.length_cons, List.length_cons, ih]

theorem live_save {id : Nat} {nodes : List Node} {i : Nat} {n : Node}
    (found : nodes[i]? = some n) (save : n.op.isSave) :
    (liveNodes id nodes).1[i]? = some true := by
  induction nodes generalizing id i with
  | nil => simp at found
  | cons m rest ih =>
    rw [liveNodes_cons]
    cases i with
    | zero =>
      obtain rfl := Option.some.inj found
      simp [isLive, save]
    | succ i => exact ih found

theorem read_of_live {id : Nat} {nodes : List Node} {i : Nat} {n : Node}
    (found : nodes[i]? = some n) (live : (liveNodes id nodes).1[i]? = some true) {x : NodeId}
    (member : x ∈ n.op.operands) : x ∈ (liveNodes id nodes).2 := by
  induction nodes generalizing id i with
  | nil => simp at found
  | cons m rest ih =>
    rw [liveNodes_cons] at live ⊢
    cases i with
    | zero =>
      obtain rfl := Option.some.inj found
      dsimp only
      rw [if_pos (Option.some.inj live)]
      exact List.mem_append_left _ member
    | succ i =>
      have later := @ih (id + 1) i found live
      dsimp only
      split
      · exact List.mem_append_right _ later
      · exact later

/-- What is read is live, if operands come first. -/
theorem live_of_read {id : Nat} {nodes : List Node}
    (ordered : ∀ (i : Nat) (n : Node), nodes[i]? = some n →
      ∀ x : Nat, x ∈ n.op.operands → x < id + i)
    {i : Nat} (read : id + i ∈ (liveNodes id nodes).2) :
    (liveNodes id nodes).1[i]? = some true := by
  induction nodes generalizing id i with
  | nil => simp [liveNodes] at read
  | cons m rest ih =>
    have below : ∀ (i : Nat) (n : Node), rest[i]? = some n →
        ∀ x : Nat, x ∈ n.op.operands → x < id + 1 + i := by
      intro i n found x member
      have bound := ordered (i + 1) n found x member
      omega
    rw [liveNodes_cons] at read ⊢
    have later : id + i ∈ (liveNodes (id + 1) rest).2 := by
      dsimp only at read
      split at read
      next =>
        rcases List.mem_append.1 read with own | later
        · have bound := ordered 0 m rfl (id + i) own
          omega
        · exact later
      next => exact read
    cases i with
    | zero =>
      have here : (liveNodes (id + 1) rest).2.contains id := List.elem_eq_true_of_mem later
      rw [List.getElem?_cons_zero, isLive, here, Bool.or_true]
    | succ i =>
      refine ih below ?_
      rwa [Nat.add_right_comm, Nat.add_assoc]

variable {declared : List Placeholder} {σ : Store} {f : Function} {n : Node} {i : Nat}

namespace Function

/-- Where a kept node goes. -/
def position (f : Function) (x : NodeId) : NodeId := (f.live.take x).count true

theorem position_lt {x : Nat} (live : f.live[x]? = some true) (later : x < i) :
    f.position x < f.position i :=
  count_take_lt live later

theorem prune_nodes (f : Function) :
    f.prune.1.nodes = (kept f.nodes f.live).map fun y => y.1.rename f.position := rfl

theorem prune_getElem? {j : Nat} {m : Node} (found : f.prune.1.nodes[j]? = some m) :
    ∃ i n, f.nodes[i]? = some n ∧ f.live[i]? = some true ∧ f.position i = j ∧
      m = n.rename f.position := by
  rw [prune_nodes, List.getElem?_map] at found
  obtain ⟨y, atIndex, rfl⟩ := Option.map_eq_some_iff.1 found
  obtain ⟨i, source, stays, place⟩ := getElem?_kept atIndex
  exact ⟨i, y.1, source, stays, place, rfl⟩

theorem prune_position (found : f.nodes[i]? = some n) (live : f.live[i]? = some true) :
    f.prune.1.nodes[f.position i]? = some (n.rename f.position) := by
  rw [prune_nodes, List.getElem?_map, position, kept_getElem? found live]
  rfl

theorem Lawful.live_operand (lawful : f.Lawful declared σ) (found : f.nodes[i]? = some n)
    (live : f.live[i]? = some true) {x : Nat} (member : x ∈ n.op.operands) :
    f.live[x]? = some true := by
  have read := read_of_live found live member
  refine @live_of_read 0 f.nodes (fun i n found x member => ?_) x ((Nat.zero_add x).symm ▸ read)
  rw [Nat.zero_add]
  exact lawful.operand_lt found member

/-- The values of the kept nodes, in their new places. -/
def moved (f : Function) (val : NodeId → Option Value) (j : NodeId) : Option Value :=
  (kept (List.range f.nodes.length) f.live)[j]?.bind fun y => val y.1

theorem moved_position (val : NodeId → Option Value) (inside : i < f.nodes.length)
    (live : f.live[i]? = some true) : f.moved val (f.position i) = val i := by
  have source : (List.range f.nodes.length)[i]? = some i := List.getElem?_range inside
  rw [moved, position, kept_getElem? source live]
  rfl

theorem Lawful.moved_operand (lawful : f.Lawful declared σ) (val : NodeId → Option Value)
    (found : f.nodes[i]? = some n) (live : f.live[i]? = some true) {x : Nat}
    (member : x ∈ n.op.operands) : f.moved val (f.position x) = val x :=
  moved_position val
    (Nat.lt_trans (lawful.operand_lt found member) (List.getElem?_eq_some_iff.1 found).1)
    (lawful.live_operand found live member)

/-- What the kept nodes give under `F` is what all nodes give, if dead ones give nothing. -/
theorem filterMap_prune {β : Type} {F G : Node → Option β}
    (moved : ∀ (i : Nat) (n : Node), f.nodes[i]? = some n → f.live[i]? = some true →
      F (n.rename f.position) = G n)
    (saves : ∀ n : Node, n.op.isSave = false → G n = none) :
    f.prune.1.nodes.filterMap F = f.nodes.filterMap G := by
  have dropped : ∀ (i : Nat) (n : Node), f.nodes[i]? = some n → f.live[i]? = some false →
      G n = none := by
    intro i n found dead
    refine saves n (Bool.eq_false_iff.2 fun save => ?_)
    have live : f.live[i]? = some true := live_save found save
    cases live.symm.trans dead
  rw [← filterMap_kept (length_liveNodes 0 f.nodes) dropped, prune_nodes, List.filterMap_map]
  refine List.filterMap_congr fun y member => ?_
  obtain ⟨j, atIndex⟩ := List.mem_iff_getElem?.1 member
  obtain ⟨i, source, stays, -⟩ := getElem?_kept atIndex
  exact moved i y.1 source stays

theorem Lawful.prune (lawful : f.Lawful declared σ) : Rewrites declared σ f σ f.prune.1 := by
  have outputs : f.prune.1.outputs = f.outputs :=
    filterMap_prune (fun i n _ _ => Op.target?_map f.position n.op)
      fun n other => Op.target?_of_not_save other
  refine ⟨.refl σ, rfl, ⟨fun j m new => ?_, outputs ▸ lawful.distinct⟩, outputs,
    fun m member => ?_, fun p member => ?_,
    fun load val evaluates => ⟨f.moved val, fun j m new => ?_, ?_⟩⟩
  · obtain ⟨i, n, found, live, rfl, rfl⟩ := prune_getElem? new
    have node := lawful.nodes i n found
    refine ⟨node.typed.map fun x member => ?_, node.rank_le, fun p named => ?_,
      fun t constant => ?_⟩
    · have later := lawful.operand_lt found member
      have stays := lawful.live_operand found live member
      have inside := Nat.lt_trans later (List.getElem?_eq_some_iff.1 found).1
      have source := List.getElem?_eq_getElem inside
      rw [List.getElem?_take_of_lt later, List.getElem?_take_of_lt (position_lt stays later),
        types_getElem?, types_getElem?, prune_position source stays, source]
      rfl
    · exact node.declared p ((Op.placeholder?_map f.position n.op).symm.trans named)
    · rw [Node.constant?_eq_some] at constant
      exact node.held t (Node.constant?_eq_some.2 (Op.map_eq_constant constant))
  · obtain ⟨j, new⟩ := List.mem_iff_getElem?.1 member
    obtain ⟨i, n, found, -, -, rfl⟩ := prune_getElem? new
    exact List.mem_map.2 ⟨n, List.mem_of_getElem? found, rfl⟩
  · obtain ⟨m, new, source⟩ := List.mem_filterMap.1 member
    obtain ⟨j, atIndex⟩ := List.mem_iff_getElem?.1 new
    obtain ⟨i, n, found, -, -, rfl⟩ := prune_getElem? atIndex
    refine List.mem_filterMap.2 ⟨n, List.mem_of_getElem? found, ?_⟩
    rwa [Node.rename, Op.source?_map] at source
  · obtain ⟨i, n, found, live, rfl, rfl⟩ := prune_getElem? new
    rw [moved_position val (List.getElem?_eq_some_iff.1 found).1 live]
    exact (evaluates i n found).map fun x member =>
      lawful.moved_operand val found live member
  · refine filterMap_prune (fun i n found live => ?_) fun n other => Node.saved?_of_not_save other
    rw [Node.saved?_rename]
    exact Node.saved?_congr fun x member => lawful.moved_operand val found live member

end Function
end TensorGraph
