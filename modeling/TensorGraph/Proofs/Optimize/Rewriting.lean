import TensorGraph.Proofs.Run.Valuation

/-!
What every optimizer pass does. `Rewrites` relates a function and a store to those after a
pass: the function stays lawful, its outputs stay, it has no node of a new type and reads no new
placeholder, and each of its valuations gives one of the new function that saves the same values.
Passes that keep every node in its place are checked node by node with `Replaces`.
-/

namespace TensorGraph

theorem Node.rename_congr {n : Node} {g h : NodeId → NodeId}
    (same : ∀ x ∈ n.op.operands, g x = h x) : n.rename g = n.rename h := by
  rw [rename, rename, Op.map_congr same]

theorem Node.rename_self {n : Node} {g : NodeId → NodeId} (same : ∀ x ∈ n.op.operands, g x = x) :
    n.rename g = n := by
  rw [rename, Op.map_congr (h := id) same, Op.map_id]

structure Rewrites (declared : List Placeholder) (σ : Store) (f : Function) (τ : Store)
    (g : Function) : Prop where
  grows : σ.Grows τ
  owner : g.owner = f.owner
  lawful : g.Lawful declared τ
  outputs : g.outputs = f.outputs
  types : ∀ n ∈ g.nodes, n.ty ∈ f.types
  sources : ∀ p ∈ g.sources, p ∈ f.sources
  values : ∀ load val, Evaluates load σ.read f.nodes val →
    ∃ val', Evaluates load τ.read g.nodes val' ∧ g.saved val' = f.saved val

/-- A lawful node that takes the place of `n`, the node of `f` at position `i`, and yields
the same. -/
structure Replaces (declared : List Placeholder) (σ : Store) (f : Function) (τ : Store)
    (i : Nat) (n n' : Node) : Prop where
  lawful : n'.Lawful declared τ (f.types.take i)
  type : n'.ty = n.ty
  target : n'.op.target? = n.op.target?
  source : n'.op.source? = n.op.source?
  yields : ∀ load val, Evaluates load σ.read f.nodes val →
    Yields load τ.read val n'.op n'.ty (val i)
  saved : ∀ load val, Evaluates load σ.read f.nodes val → n'.saved? val = n.saved? val

variable {declared : List Placeholder} {σ τ υ : Store} {f g h : Function} {n n' : Node} {i : Nat}

/-- `done` replaces the first nodes of `f`. -/
def ReplacesFirst (declared : List Placeholder) (σ : Store) (f : Function) (τ : Store)
    (done : List Node) : Prop :=
  ∀ (i : Nat) (n n' : Node), f.nodes[i]? = some n → done[i]? = some n' →
    Replaces declared σ f τ i n n'

theorem Rewrites.trans (first : Rewrites declared σ f τ g) (second : Rewrites declared τ g υ h) :
    Rewrites declared σ f υ h := by
  refine ⟨first.grows.trans second.grows, second.owner.trans first.owner, second.lawful,
    second.outputs.trans first.outputs, fun n member => ?_,
    fun p member => first.sources p (second.sources p member), fun load val evaluates => ?_⟩
  · obtain ⟨m, between, same⟩ := List.mem_map.1 (second.types n member)
    exact same ▸ first.types m between
  obtain ⟨val', evaluates', same'⟩ := first.values load val evaluates
  obtain ⟨val'', evaluates'', same''⟩ := second.values load val' evaluates'
  exact ⟨val'', evaluates'', same''.trans same'⟩

theorem Replaces.grow (replaces : Replaces declared σ f τ i n n') (grows : τ.Grows υ) :
    Replaces declared σ f υ i n n' := by
  refine ⟨replaces.lawful.mono (fun _ member => member) grows.evolves, replaces.type,
    replaces.target, replaces.source, fun load val evaluates => ?_, replaces.saved⟩
  refine (replaces.yields load val evaluates).const_congr fun t constant => ?_
  exact grows.read (replaces.lawful.held t (Node.constant?_eq_some.2 constant))

theorem Replaces.refl (lawful : f.Lawful declared σ) (found : f.nodes[i]? = some n) :
    Replaces declared σ f σ i n n :=
  ⟨lawful.nodes i n found, rfl, rfl, rfl, fun _ _ evaluates => evaluates i n found,
    fun _ _ _ => rfl⟩

theorem ReplacesFirst.nil : ReplacesFirst declared σ f τ [] :=
  fun i n n' old new => by simp at new

theorem ReplacesFirst.grow {done : List Node} (replaces : ReplacesFirst declared σ f τ done)
    (grows : τ.Grows υ) : ReplacesFirst declared σ f υ done :=
  fun i n n' old new => (replaces i n n' old new).grow grows

theorem ReplacesFirst.concat {done : List Node} (replaces : ReplacesFirst declared σ f τ done)
    (found : f.nodes[done.length]? = some n) (next : Replaces declared σ f τ done.length n n') :
    ReplacesFirst declared σ f τ (done ++ [n']) := by
  intro i m m' old new
  rcases getElem?_concat new with before | ⟨rfl, rfl⟩
  · exact replaces i m m' old before
  · rw [← Option.some.inj (found.symm.trans old)]
    exact next

theorem Rewrites.of_replaces (lawful : f.Lawful declared σ) (grows : σ.Grows τ)
    (owner : g.owner = f.owner) (length : g.nodes.length = f.nodes.length)
    (replaces : ReplacesFirst declared σ f τ g.nodes) : Rewrites declared σ f τ g := by
  have inPlace (i : Nat) (n' : Node) (found : g.nodes[i]? = some n') :
      ∃ n, f.nodes[i]? = some n ∧ Replaces declared σ f τ i n n' := by
    have bound := (List.getElem?_eq_some_iff.1 found).1
    rw [length] at bound
    have old := List.getElem?_eq_getElem bound
    exact ⟨_, old, replaces i _ n' old found⟩
  have types : g.types = f.types :=
    map_eq_map_of_pointwise length fun i n n' old new => (replaces i n n' old new).type
  have outputs : g.outputs = f.outputs :=
    filterMap_eq_of_pointwise length fun i n n' old new => (replaces i n n' old new).target
  have sources : g.sources = f.sources :=
    filterMap_eq_of_pointwise length fun i n n' old new => (replaces i n n' old new).source
  refine ⟨grows, owner, lawful.replace types outputs fun i n' new => ?_, outputs,
    fun n member => types ▸ List.mem_map_of_mem member, fun p member => sources ▸ member,
    fun load val evaluates => ⟨val, fun i n' new => ?_, ?_⟩⟩
  · obtain ⟨n, -, there⟩ := inPlace i n' new
    exact there.lawful
  · obtain ⟨n, -, there⟩ := inPlace i n' new
    exact there.yields load val evaluates
  · exact filterMap_eq_of_pointwise length fun i n n' old new =>
      (replaces i n n' old new).saved load val evaluates

end TensorGraph
