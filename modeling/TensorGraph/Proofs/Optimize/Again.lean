import TensorGraph.Proofs.History
import TensorGraph.Proofs.Optimize.Remerging

/-!
Optimizing twice. Folding and pruning leave nothing to do for a second time, and neither does
merging unless fusion has made a node equal to another one. Fusion may: it counts the readers of
a sum before the dead ones are dropped, so a cut-off that it left may be the only reader
afterwards.
-/

namespace TensorGraph

open Workspace

variable {declared : List Placeholder} {σ τ : Store} {f g : Function} {mode : Mode}

namespace Function

def NothingToFuse (f : Function) : Prop := ∀ n ∈ f.nodes, f.fused? n = none

/-- No node was fused before. -/
def Unfused (f : Function) : Prop := ∀ n ∈ f.nodes, n.kind ≠ .addRelu

theorem nothingToFuse_iff : f.NothingToFuse ↔ f.fuseAddRelu.2 = 0 := by
  simp [NothingToFuse, fuseAddRelu, List.countP_eq_zero]

theorem NothingToFuse.fuseAddRelu (nothing : f.NothingToFuse) : f.fuseAddRelu = (f, 0) := by
  have nodes : f.fuseAddRelu.1.nodes = f.nodes := by
    refine (List.map_congr_left fun n member => ?_).trans (List.map_id _)
    rw [nothing n member]
    rfl
  have same : f.fuseAddRelu.1 = { f with nodes := f.fuseAddRelu.1.nodes } := rfl
  rw [nodes] at same
  exact Prod.ext same (nothingToFuse_iff.1 nothing)

theorem Unfused.foldConstants {count : Nat} (unfused : f.Unfused)
    (folded : f.foldConstants σ = .ok (g, count) τ) : g.Unfused := by
  intro n member
  rcases (foldedFirst_foldConstants folded).origin n member with old | ⟨t, op⟩
  · exact unfused n old
  · rw [Node.kind, op]
    exact nofun

theorem Unfused.mergeCommon (unfused : f.Unfused) (ordered : Topological f.nodes) :
    f.mergeCommon.1.Unfused := by
  obtain ⟨s, tidy, nodes, merged⟩ := mergeCommon_tidy ordered
  rw [merged]
  intro m member
  dsimp only at member
  rw [nodes] at member
  obtain ⟨n, present, rfl⟩ := List.mem_map.1 member
  rw [Node.kind, Node.rename, Op.kind_map]
  exact unfused n present

/-- What is live after fusion was live before, since a fused node's sum was live. -/
theorem Lawful.live_of_fuseAddRelu (lawful : f.Lawful declared σ) {i : Nat}
    (live : f.fuseAddRelu.1.live[i]? = some true) : f.live[i]? = some true := by
  refine lawful.fuseAddRelu.lawful.live_induction (P := fun i => f.live[i]? = some true)
    (fun i n' found save => ?_) (fun j m' found _ stays x member => ?_) live
  · obtain ⟨n, there, rfl | ⟨x, a, b, sum, -, -, -, rfl⟩⟩ := fuseAddRelu_cases found
    · exact live_save there save
    · cases save
  · obtain ⟨m, there, rfl | ⟨y, a, b, sum, op, source, add, rfl⟩⟩ := fuseAddRelu_cases found
    · exact lawful.live_operand there stays member
    · have read : f.live[y]? = some true :=
        lawful.live_operand there stays (by rw [op]; exact List.mem_singleton_self y)
      refine lawful.live_operand source read ?_
      rw [add]
      exact member

theorem Lawful.sum_type (lawful : f.Lawful declared σ) {i x : Nat} {n sum : Node}
    (found : f.nodes[i]? = some n) (op : n.op = .unary .relu x) (source : f.nodes[x]? = some sum) :
    sum.ty = n.ty := by
  have typed := lawful.typed found
  rw [op] at typed
  cases typed with
  | unary operand =>
    rw [types_getElem?, source] at operand
    exact Option.some.inj operand

/-- Live cut-offs of equal sums are one node, since the sums are. -/
theorem LiveApart.cut_unique (apart : f.LiveApart) (lawful : f.Lawful declared σ)
    {i j x y a b : Nat} {m n sum sum' : Node} (first : f.nodes[i]? = some m)
    (second : f.nodes[j]? = some n) (live : f.live[i]? = some true)
    (live' : f.live[j]? = some true) (op : m.op = .unary .relu x) (op' : n.op = .unary .relu y)
    (source : f.nodes[x]? = some sum) (source' : f.nodes[y]? = some sum')
    (add : sum.op = .binary .add a b) (add' : sum'.op = .binary .add a b) (type : m.ty = n.ty) :
    i = j := by
  have reads : f.live[x]? = some true :=
    lawful.live_operand first live (by rw [op]; exact List.mem_singleton_self x)
  have reads' : f.live[y]? = some true :=
    lawful.live_operand second live' (by rw [op']; exact List.mem_singleton_self y)
  have types : sum'.ty = sum.ty := (lawful.sum_type second op' source').trans
    (type.symm.trans (lawful.sum_type first op source).symm)
  have sumKey : sum.key? = some ⟨.binary .add, [a, b], sum.ty, none⟩ := by
    rw [Node.key?, add]
    rfl
  have sumKey' : sum'.key? = some ⟨.binary .add, [a, b], sum.ty, none⟩ := by
    rw [Node.key?, add', types]
    rfl
  obtain rfl := apart x y sum sum' _ source source' reads reads' sumKey sumKey'
  have cutKey : m.key? = some ⟨.unary .relu, [x], m.ty, none⟩ := by
    rw [Node.key?, op]
    rfl
  have cutKey' : n.key? = some ⟨.unary .relu, [x], m.ty, none⟩ := by
    rw [Node.key?, op', type]
    rfl
  exact apart i j m n _ first second live live' cutKey cutKey'

/-- If live nodes had different keys and none was fused before, fusion makes no two equal. -/
theorem LiveApart.fuseAddRelu (apart : f.LiveApart) (lawful : f.Lawful declared σ)
    (unfused : f.Unfused) : f.fuseAddRelu.1.LiveApart := by
  have mixed {m n : Node} {key : NodeKey} {a b : NodeId} (old : m ∈ f.nodes)
      (left : m.key? = some key) (right : Node.key? { n with op := .addRelu a b } = some key) :
      False := by
    obtain ⟨rfl, -⟩ := Node.key?_eq_some left
    obtain ⟨kind, -⟩ := NodeKey.mk.inj (Node.key?_eq_some right).1
    exact unfused m old kind
  intro i j m' n' key left right leftLive rightLive leftKey rightKey
  have live := lawful.live_of_fuseAddRelu leftLive
  have live' := lawful.live_of_fuseAddRelu rightLive
  obtain ⟨m, first, rfl | ⟨x, a, b, sum, op, source, add, rfl⟩⟩ := fuseAddRelu_cases left
  · obtain ⟨n, second, rfl | ⟨y, c, d, sum, op, source, add, rfl⟩⟩ := fuseAddRelu_cases right
    · exact apart i j m' n' key first second live live' leftKey rightKey
    · exact (mixed (List.mem_of_getElem? first) leftKey rightKey).elim
  · obtain ⟨n, second, rfl | ⟨y, c, d, sum', op', source', add', rfl⟩⟩ := fuseAddRelu_cases right
    · exact (mixed (List.mem_of_getElem? second) rightKey leftKey).elim
    · obtain ⟨-, operands, type, -⟩ :=
        NodeKey.mk.inj (Option.some.inj (leftKey.trans rightKey.symm))
      obtain ⟨rfl, rest⟩ := List.cons.inj operands
      obtain rfl := (List.cons.inj rest).1
      exact apart.cut_unique lawful first second live live' op op' source source' add add' type

/-- A function with nothing to fold and no dead nodes is left as it is exactly when there is
nothing to merge and, for inference, nothing to fuse. -/
theorem Lawful.optimize_stays_iff (lawful : f.Lawful declared σ) (nothing : f.NothingToFold)
    (allLive : f.AllLive) (mode : Mode) :
    f.optimize mode σ = .ok (f, {}) σ ↔
      f.NothingToMerge ∧ (mode = .train ∨ f.NothingToFuse) := by
  have ordered := lawful.topological
  have pruned := lawful.prune_of_allLive allLive
  rw [lawful.optimize_of_folded (nothing.foldConstants σ) mode]
  constructor
  · intro same
    obtain ⟨-, counts⟩ := Prod.mk.inj (EStateM.Result.ok.inj same).1
    obtain ⟨-, merged, fused, -⟩ := PassCounts.mk.inj counts
    have toMerge := (nothingToMerge_iff ordered).2 merged
    refine ⟨toMerge, ?_⟩
    cases mode with
    | train => exact .inl rfl
    | infer =>
      rw [toMerge.mergeCommon ordered] at fused
      exact .inr (nothingToFuse_iff.2 fused)
  · rintro ⟨toMerge, toFuse⟩
    simp only [toMerge.mergeCommon ordered]
    cases mode with
    | train => simp [fusedFor, Mode.isTraining, pruned]
    | infer =>
      rcases toFuse with train | toFuse
      · cases train
      · simp [fusedFor, Mode.isTraining, toFuse.fuseAddRelu, pruned]

/-- What optimizing leaves, whatever it was given: nothing to fold, no dead nodes, and nothing
to merge unless fusion met a node that was fused before. -/
theorem Lawful.optimize_leaves (lawful : f.Lawful declared σ) (apart : Placeholder.Apart declared)
    {counts : PassCounts} (made : f.optimize mode σ = .ok (g, counts) τ) :
    g.Lawful declared τ ∧ g.NothingToFold ∧ g.AllLive ∧
      (mode = .train ∨ f.Unfused → g.NothingToMerge) := by
  obtain ⟨h, folded, first, folding, rfl, -⟩ := lawful.optimize_eq_ok made
  have ordered := folding.lawful.topological
  have merging := (folding.lawful.mergeCommon apart).lawful
  have nothing := (nothingToFold_foldConstants folding.lawful first).mergeCommon ordered
  have different := liveApart_mergeCommon ordered
  cases mode with
  | train =>
    exact ⟨merging.prune.lawful, nothing.prune merging, merging.allLive_prune,
      fun _ => different.prune merging⟩
  | infer =>
    have fusing := merging.fuseAddRelu.lawful
    refine ⟨fusing.prune.lawful, nothing.fuseAddRelu.prune fusing, fusing.allLive_prune, ?_⟩
    rintro (train | unfused)
    · cases train
    · have unfused' := (unfused.foldConstants first).mergeCommon ordered
      exact (different.fuseAddRelu merging unfused').prune fusing

end Function

/-- Optimizing a function that was built and optimized in any way, and optimizing the result
again with the same mode. For training the second time changes nothing and counts nothing. For
inference that is so exactly when the result has no cut-off that is the only reader of a sum and
no two nodes with the same key, and the latter can only fail if the function had fused nodes
before. There is no result only where folding comes to a value that cannot be counted. -/
theorem second_optimize_stays_iff {w : Workspace} (reached : w.Reachable) {f : Function}
    (member : f ∈ w.module.functions) (mode : Mode) :
    (∃ g counts τ, f.optimize mode w.store = .ok (g, counts) τ ∧
      (g.optimize mode τ = .ok (g, {}) τ ↔
        mode = .train ∨ g.NothingToMerge ∧ g.NothingToFuse) ∧
      (f.Unfused → g.NothingToMerge)) ∨
    f.Overflows (f.optimize mode) w.store := by
  obtain ⟨-, lawful⟩ := reached.lawful.functions f member
  refine (lawful.optimize reached.lawful.apart mode).imp_left ?_
  rintro ⟨g, counts, τ, made, -⟩
  obtain ⟨kept, nothing, allLive, toMerge⟩ := lawful.optimize_leaves reached.lawful.apart made
  refine ⟨g, counts, τ, made, ?_, fun unfused => toMerge (.inr unfused)⟩
  rw [kept.optimize_stays_iff nothing allLive mode]
  constructor
  · rintro ⟨merge, train | fuse⟩
    · exact .inl train
    · exact .inr ⟨merge, fuse⟩
  · rintro (train | ⟨merge, fuse⟩)
    · exact ⟨toMerge (.inl train), .inl train⟩
    · exact ⟨merge, .inr fuse⟩

theorem second_optimize_stays_shift :
    ∃ g counts τ, Shift.function.optimize .train Shift.workspace.store = .ok (g, counts) τ ∧
      g.optimize .train τ = .ok (g, {}) τ ∧ g.NothingToMerge := by
  have fits : Shift.function.Fits := by decide
  obtain ⟨g, counts, τ, made, again, toMerge⟩ :=
    (second_optimize_stays_iff Shift.reachable Shift.member .train).resolve_right
      fun past => past.1 fits
  exact ⟨g, counts, τ, made, again.2 (.inl rfl), toMerge (by unfold Function.Unfused; decide)⟩

namespace Workspace.Spare

-- A sum with two readers, one of them dead.

def left : Placeholder := ⟨⟨⟨0⟩, 0⟩, "x", ⟨.float, .vector 2⟩, false⟩

def right : Placeholder := ⟨⟨⟨0⟩, 1⟩, "y", ⟨.float, .vector 2⟩, false⟩

def target : Placeholder := ⟨⟨⟨0⟩, 2⟩, "out", ⟨.float, .vector 2⟩, false⟩

def actions : List Action :=
  [.declare .float (.vector 2) "x" false, .declare .float (.vector 2) "y" false,
    .declare .float (.vector 2) "out" false, .create "f", .build "f" (.input left),
    .build "f" (.input right), .build "f" (.binary "sum" .add 0 1),
    .build "f" (.unary "cut" .relu 2), .build "f" (.unary "spare" .neg 2),
    .build "f" (.save "saved" 3 target)]

def workspace : Workspace := actions.foldl perform ⟨.empty, .empty ⟨0⟩⟩

def function : Function := workspace.module.functions.headD (.empty "" ⟨0⟩)

theorem reachable : workspace.Reachable :=
  (Reachable.start _ _).run ⟨trivial, trivial, trivial, trivial, fun _ => by decide,
    fun _ => by decide, trivial, trivial, trivial, fun _ => by decide, trivial⟩

theorem member : function ∈ workspace.module.functions := by decide

end Workspace.Spare

/-- The first time the dead reader keeps the sum from being fused and is dropped, the second
time the sum is fused. -/
theorem second_optimize_fuses :
    Spare.workspace.Reachable ∧ Spare.function ∈ Spare.workspace.module.functions ∧
      ∃ g h, Spare.function.optimize .infer Spare.workspace.store =
          .ok (g, { removed := 1 }) Spare.workspace.store ∧
        g.optimize .infer Spare.workspace.store =
          .ok (h, { fused := 1, removed := 1 }) Spare.workspace.store ∧ h ≠ g := by
  exact ⟨Spare.reachable, Spare.member, _, _, rfl, rfl, by decide⟩

end TensorGraph
