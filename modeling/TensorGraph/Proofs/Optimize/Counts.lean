import Mathlib.Data.List.Nodup
import Mathlib.Data.List.Perm.Subperm
import TensorGraph.Proofs.Optimize.NormalForm

/-!
What an optimization reports. A repeated node and a sum that a cut-off took in have no readers
left, so all of them are among the nodes that are dropped. Hence nothing is reported exactly when
nothing changed.
-/

namespace TensorGraph

theorem eq_of_count_flatMap {α β : Type} [DecidableEq β] {g : α → List β} {xs : List α} {y : β}
    (once : (xs.flatMap g).count y = 1) {i j : Nat} {a b : α} (first : xs[i]? = some a)
    (second : xs[j]? = some b) (left : y ∈ g a) (right : y ∈ g b) : i = j := by
  induction xs generalizing i j with
  | nil => cases first
  | cons x xs ih =>
    have later {k : Nat} {c : α} (found : xs[k]? = some c) (member : y ∈ g c) :
        0 < (xs.flatMap g).count y :=
      List.count_pos_iff.2 (List.mem_flatMap.2 ⟨c, List.mem_of_getElem? found, member⟩)
    rw [List.flatMap_cons, List.count_append] at once
    cases i with
    | zero =>
      cases j with
      | zero => rfl
      | succ j =>
        obtain rfl := Option.some.inj first
        have here := List.count_pos_iff.2 left
        have there := later second right
        omega
    | succ i =>
      cases j with
      | zero =>
        obtain rfl := Option.some.inj second
        have here := List.count_pos_iff.2 right
        have there := later first left
        omega
      | succ j =>
        have rest := later first left
        rw [ih (by omega) first second]

variable {declared : List Placeholder} {σ τ : Store} {f g : Function} {m n : Node} {i j x : Nat}
  {mode : Mode}

theorem foldAll_counts (rest : List Node) {done nodes : List Node} {count total : Nat}
    (ran : rest.foldlM foldStep (done, count) σ = .ok (nodes, total) τ) :
    ∃ made, nodes = done ++ made ∧ count ≤ total ∧ (total = count ↔ made = rest) := by
  induction rest generalizing done count σ with
  | nil =>
    cases ran
    exact ⟨[], (List.append_nil _).symm, Nat.le_refl _, by simp⟩
  | cons n rest ih =>
    rw [List.foldlM_cons] at ran
    obtain ⟨⟨done', count'⟩, υ, stepped, ran⟩ := state_bind_eq_ok.1 ran
    obtain ⟨made, rfl, more, same⟩ := ih ran
    rcases foldStep_cases stepped with ⟨-, rfl, rfl⟩ | ⟨computes, -, t, rfl, rfl⟩
    · exact ⟨n :: made, by simp, more, by simp [same]⟩
    · have changed : { n with op := .constant t } ≠ n := by
        intro unchanged
        rw [← unchanged] at computes
        cases computes
      refine ⟨{ n with op := .constant t } :: made, by simp, by omega, ?_⟩
      simp [changed]
      omega

namespace Function

theorem folded_eq_zero_iff {count : Nat} (folded : f.foldConstants σ = .ok (g, count) τ) :
    count = 0 ↔ g.nodes = f.nodes := by
  obtain ⟨⟨nodes, total⟩, υ, ran, same⟩ := state_bind_eq_ok.1 folded
  cases same
  obtain ⟨made, rfl, -, counted⟩ := foldAll_counts f.nodes ran
  simpa using counted

def repeated (f : Function) : List NodeId :=
  (List.range f.size).filter fun x => f.merging.redirect x ≠ x

theorem length_repeated (ordered : Topological f.nodes) :
    f.repeated.length = f.mergeCommon.2 := by
  obtain ⟨tidy, nodes⟩ := merging_tidy ordered
  have counted := tidy.counted
  rw [nodes, List.length_map] at counted
  rw [repeated, ← List.countP_eq_length_filter]
  exact counted.symm

/-- The sum that a cut-off takes in, if it takes in one. -/
def absorbed? (f : Function) (n : Node) : Option NodeId :=
  (f.fused? n).bind fun _ => n.op.operands.head?

def absorbed (f : Function) (mode : Mode) : List NodeId :=
  if mode.isTraining then [] else f.nodes.filterMap f.absorbed?

theorem absorbed?_eq_some (taken : f.absorbed? n = some x) :
    n.op = .unary .relu x ∧ f.uses x = 1 ∧ (∃ n', f.fused? n = some n') ∧
      ∃ a b sum, f.nodes[x]? = some sum ∧ sum.op = .binary .add a b := by
  obtain ⟨n', fused, head⟩ := Option.bind_eq_some_iff.1 taken
  obtain ⟨y, a, b, sum, op, source, add, -⟩ := fused?_eq_some fused
  rw [op] at head
  obtain rfl : y = x := by simpa [Op.operands] using head
  refine ⟨op, ?_, ⟨n', fused⟩, a, b, sum, source, add⟩
  by_contra other
  simp [fused?, op, source, add, other] at fused

theorem length_absorbed (f : Function) (mode : Mode) :
    (f.absorbed mode).length = (f.fusedFor mode).2 := by
  have some_iff (n : Node) : (f.absorbed? n).isSome = (f.fused? n).isSome := by
    cases fused : f.fused? n with
    | none => simp [absorbed?, fused]
    | some n' =>
      obtain ⟨y, a, b, sum, op, -⟩ := fused?_eq_some fused
      simp [absorbed?, fused, op, Op.operands]
  cases mode with
  | train => rfl
  | infer => simp [absorbed, fusedFor, Mode.isTraining, List.length_filterMap_eq_countP,
      fuseAddRelu, some_iff]

/-- Each sum that is taken in has its cut-off as its only reader. -/
theorem nodup_absorbed (f : Function) (mode : Mode) : (f.absorbed mode).Nodup := by
  cases mode with
  | train => exact List.nodup_nil
  | infer =>
    refine List.pairwise_filterMap.2 (List.pairwise_iff_getElem.2 fun i j left right less => ?_)
    rintro x first y second rfl
    obtain ⟨op, once, -⟩ := absorbed?_eq_some first
    obtain ⟨op', -⟩ := absorbed?_eq_some second
    have same := eq_of_count_flatMap once (List.getElem?_eq_getElem left)
      (List.getElem?_eq_getElem right) (y := x) (by simp [op, Op.operands])
      (by simp [op', Op.operands])
    exact Nat.ne_of_lt less same

theorem exists_of_absorbed (member : x ∈ f.absorbed mode) :
    mode = .infer ∧ ∃ n ∈ f.nodes, f.absorbed? n = some x := by
  cases mode with
  | train => cases member
  | infer => exact ⟨rfl, List.mem_filterMap.1 member⟩

theorem read_before_fusion (member : m ∈ (f.fusedFor mode).1.nodes) (read : x ∈ m.op.operands) :
    ∃ n ∈ f.nodes, x ∈ n.op.operands := by
  obtain ⟨i, found⟩ := List.mem_iff_getElem?.1 member
  obtain ⟨n, there, rfl | ⟨y, a, b, sum, -, source, add, rfl⟩⟩ := fusedFor_cases found
  · exact ⟨m, List.mem_of_getElem? there, read⟩
  · exact ⟨sum, List.mem_of_getElem? source, by rw [add]; exact read⟩

theorem not_live_of_unread (unread : ∀ m ∈ f.nodes, x ∉ m.op.operands)
    (unsaved : ∀ n, f.nodes[x]? = some n → n.op.isSave = false) : f.live[x]? ≠ some true := by
  intro live
  obtain ⟨n, found⟩ := exists_of_live live
  rcases live_cases found live with save | ⟨j, m, there, -, member⟩
  · exact Bool.noConfusion ((unsaved n found).symm.trans save)
  · rw [Nat.zero_add] at member
    exact unread m (List.mem_of_getElem? there) member

theorem isSave_of_fusedFor (found : (f.fusedFor mode).1.nodes[x]? = some m)
    (unsaved : ∀ n, f.nodes[x]? = some n → n.op.isSave = false) : m.op.isSave = false := by
  obtain ⟨n, there, rfl | ⟨y, a, b, sum, -, -, -, rfl⟩⟩ := fusedFor_cases found
  · exact unsaved m there
  · rfl

theorem repeated_dead (ordered : Topological f.nodes) (member : x ∈ f.repeated) :
    (f.mergeCommon.1.fusedFor mode).1.live[x]? ≠ some true := by
  have away : f.merging.redirect x ≠ x := by simpa using (List.mem_filter.1 member).2
  refine not_live_of_unread (fun m present read => ?_) fun m found => ?_
  · obtain ⟨n, there, read⟩ := read_before_fusion present read
    exact away (redirect_of_read ordered there read)
  · refine isSave_of_fusedFor found fun n there => ?_
    obtain ⟨-, r, key, source, keyed, -⟩ := (merging_tidy ordered).1.moved x away
    obtain rfl := Option.some.inj (there.symm.trans source)
    rw [← Bool.not_eq_true]
    intro save
    cases (Node.key?_of_save save).symm.trans keyed

theorem absorbed_dead (member : x ∈ f.absorbed mode) :
    (f.fusedFor mode).1.live[x]? ≠ some true := by
  obtain ⟨rfl, cut, present, taken⟩ := exists_of_absorbed member
  obtain ⟨op, once, ⟨n', fused⟩, a, b, sum, source, add⟩ := absorbed?_eq_some taken
  obtain ⟨i, found⟩ := List.mem_iff_getElem?.1 present
  have only {j : Nat} {n : Node} (there : f.nodes[j]? = some n) (read : x ∈ n.op.operands) :
      j = i ∧ n = cut := by
    obtain rfl := eq_of_count_flatMap once there found read (by simp [op, Op.operands])
    exact ⟨rfl, Option.some.inj (there.symm.trans found)⟩
  refine not_live_of_unread (fun m there read => ?_) fun m there => ?_
  · -- The only reader of the sum is the cut-off, and that reads what the sum read now.
    obtain ⟨j, place⟩ := List.mem_iff_getElem?.1 there
    obtain ⟨n, old, rfl | ⟨y, c, d, sum', -, source', add', rfl⟩⟩ := fusedFor_cases place
    · obtain ⟨rfl, rfl⟩ := only old read
      have now : (f.fusedFor .infer).1.nodes[j]? = some n' := by
        change f.fuseAddRelu.1.nodes[j]? = some n'
        rw [fuseAddRelu, List.getElem?_map, old, Option.map_some, fused, Option.getD_some]
      obtain ⟨y, c, d, sum', -, -, -, rfl⟩ := fused?_eq_some fused
      have same := congrArg Node.op (Option.some.inj (place.symm.trans now))
      rw [op] at same
      cases same
    · obtain ⟨-, rfl⟩ := only source' (by rw [add']; exact read)
      cases op.symm.trans add'
  · refine isSave_of_fusedFor there fun n old => ?_
    obtain rfl := Option.some.inj (source.symm.trans old)
    rw [add]
    rfl

/-- Merging and fusion take away different nodes. -/
theorem nodup_gone (ordered : Topological f.nodes) (mode : Mode) :
    (f.repeated ++ f.mergeCommon.1.absorbed mode).Nodup := by
  refine (List.nodup_range.filter _).append (nodup_absorbed _ _) fun x first second => ?_
  have away : f.merging.redirect x ≠ x := by simpa using (List.mem_filter.1 first).2
  obtain ⟨-, n, present, taken⟩ := exists_of_absorbed second
  obtain ⟨op, -⟩ := absorbed?_eq_some taken
  exact away (redirect_of_read ordered present (by simp [op, Op.operands]))

/-- There is room for the dead nodes beside those that are kept. -/
theorem size_prune_add (f : Function) {gone : List NodeId} (once : gone.Nodup)
    (dead : ∀ x ∈ gone, x < f.size ∧ f.live[x]? ≠ some true) :
    f.prune.1.size + gone.length ≤ f.size := by
  obtain ⟨place, ordered, there⟩ := f.exists_place
  have kept : ∀ j < f.prune.1.size, f.live[place j]? = some true ∧ place j < f.size := by
    intro j inside
    obtain ⟨live, -, n, source, -⟩ := there j _ (List.getElem?_eq_getElem inside)
    exact ⟨live, (List.getElem?_eq_some_iff.1 source).1⟩
  have places : ((List.range f.prune.1.size).map place).Nodup := by
    refine List.Nodup.map_on (fun i left j right same => ?_) List.nodup_range
    rcases Nat.lt_trichotomy i j with less | equal | more
    · exact (Nat.ne_of_lt (ordered i j less (List.mem_range.1 right)) same).elim
    · exact equal
    · exact (Nat.ne_of_gt (ordered j i more (List.mem_range.1 left)) same).elim
  have all := places.append once fun x first second => by
    obtain ⟨j, inside, rfl⟩ := List.mem_map.1 first
    exact (dead _ second).2 (kept j (List.mem_range.1 inside)).1
  have inside : (List.range f.prune.1.size).map place ++ gone ⊆ List.range f.size := by
    intro x member
    rw [List.mem_range]
    rcases List.mem_append.1 member with first | second
    · obtain ⟨j, inside, rfl⟩ := List.mem_map.1 first
      exact (kept j (List.mem_range.1 inside)).2
    · exact (dead x second).1
  simpa using (all.subperm inside).length_le

theorem allLive_of_size (same : f.prune.1.size = f.size) : f.AllLive := by
  intro i inside
  by_contra dead
  have room := f.size_prune_add (List.nodup_singleton i) fun x member => by
    rw [List.mem_singleton.1 member]
    exact ⟨inside, dead⟩
  rw [same, List.length_singleton] at room
  exact Nat.not_succ_le_self _ room

/-- Merging, fusion and pruning leave a function as it is if they report nothing. -/
theorem Lawful.stays_of_counts (lawful : f.Lawful declared σ) (mode : Mode)
    (merged : f.mergeCommon.2 = 0) (fused : (f.mergeCommon.1.fusedFor mode).2 = 0)
    (same : (f.mergeCommon.1.fusedFor mode).1.prune.1.size =
      (f.mergeCommon.1.fusedFor mode).1.size) :
    (f.mergeCommon.1.fusedFor mode).1.prune.1 = f := by
  have ordered := lawful.topological
  have nothing := ((nothingToMerge_iff ordered).2 merged).mergeCommon ordered
  rw [nothing] at fused same ⊢
  have unfused : f.fusedFor mode = (f, 0) := by
    cases mode with
    | train => rfl
    | infer => exact (nothingToFuse_iff.2 fused).fuseAddRelu
  rw [unfused] at same ⊢
  rw [lawful.prune_of_allLive (allLive_of_size same)]

theorem size_fusedFor (f : Function) (mode : Mode) : (f.fusedFor mode).1.size = f.size := by
  cases mode with
  | train => rfl
  | infer => exact List.length_map _

theorem size_mergeCommon (ordered : Topological f.nodes) : f.mergeCommon.1.size = f.size := by
  rw [size, mergeCommon_nodes ordered, List.length_map, size]

theorem gone_dead (ordered : Topological f.nodes) (mode : Mode)
    (member : x ∈ f.repeated ++ f.mergeCommon.1.absorbed mode) :
    x < f.size ∧ (f.mergeCommon.1.fusedFor mode).1.live[x]? ≠ some true := by
  rcases List.mem_append.1 member with first | second
  · exact ⟨List.mem_range.1 (List.mem_filter.1 first).1, repeated_dead ordered first⟩
  · obtain ⟨-, n, -, taken⟩ := exists_of_absorbed second
    obtain ⟨-, -, -, a, b, sum, source, -⟩ := absorbed?_eq_some taken
    have inside : x < f.mergeCommon.1.size := (List.getElem?_eq_some_iff.1 source).1
    rw [size_mergeCommon ordered] at inside
    exact ⟨inside, absorbed_dead second⟩

end Function

open Workspace

/-- What optimizing reports of a function that was built and optimized in any way. As many nodes as
it counts as removed are gone, and among them all that repeated an earlier one or were summed
into a cut-off. It counts nothing exactly when the nodes are the same as before. Nothing is reported
only where folding comes to a value that cannot be counted. -/
theorem optimize_counts {w : Workspace} (reached : w.Reachable) {f : Function}
    (member : f ∈ w.module.functions) (mode : Mode) :
    (∃ g counts τ, f.optimize mode w.store = .ok (g, counts) τ ∧
      g.size + counts.removed = f.size ∧ counts.merged + counts.fused ≤ counts.removed ∧
      (counts = {} ↔ g.nodes = f.nodes) ∧
      ∃ h, f.foldConstants w.store = .ok (h, counts.folded) τ ∧
        let gone := h.repeated ++ h.mergeCommon.1.absorbed mode
        h.repeated.length = counts.merged ∧
        (h.mergeCommon.1.absorbed mode).length = counts.fused ∧ gone.Nodup ∧
        ∃ place ρ, g.ComesFrom f place ρ ∧
          ∀ x ∈ gone, x < f.size ∧ ∀ j < g.size, place j ≠ x) ∨
    f.Overflows (f.optimize mode) w.store := by
  obtain ⟨-, lawful⟩ := reached.lawful.functions f member
  refine (lawful.optimize reached.lawful.apart mode).imp_left ?_
  rintro ⟨g, counts, τ, optimized, -⟩
  obtain ⟨h, folded, made, folding, rfl, rfl⟩ := lawful.optimize_eq_ok optimized
  have ordered := folding.lawful.topological
  obtain ⟨place, comes, live⟩ :=
    Function.exists_comesFrom folding made reached.lawful.apart mode
  have folds : h.size = f.size := (Function.foldConstants_inPlace made).2
  have merges := Function.length_repeated ordered
  have takes := h.mergeCommon.1.length_absorbed mode
  have sizes : (h.mergeCommon.1.fusedFor mode).1.size = h.size := by
    rw [Function.size_fusedFor, Function.size_mergeCommon ordered]
  have once := Function.nodup_gone ordered mode
  have dead x member := Function.gone_dead (x := x) ordered mode member
  have room := Function.size_prune_add _ once fun x member => sizes ▸ dead x member
  rw [List.length_append, merges, takes] at room
  have stays := folding.lawful.stays_of_counts mode
  generalize h.mergeCommon.1.fusedFor mode = fused at *
  have removed : fused.1.prune.2 = fused.1.size - fused.1.prune.1.size := rfl
  refine ⟨_, _, τ, optimized, ?_, ?_, ⟨fun none => ?_, fun same => ?_⟩, h, made, merges, takes, once,
    place, _, comes, fun x member => ?_⟩
  · dsimp only
    omega
  · dsimp only
    omega
  · obtain ⟨folded, merged, taken, none⟩ := PassCounts.mk.inj none
    rw [stays merged taken (by omega)]
    exact (Function.folded_eq_zero_iff made).1 folded
  · have size : fused.1.prune.1.size = f.size := congrArg List.length same
    have merged : h.mergeCommon.2 = 0 := by omega
    have taken : fused.2 = 0 := by omega
    have none : fused.1.prune.2 = 0 := by omega
    rw [stays merged taken (by omega)] at same
    rw [(Function.folded_eq_zero_iff made).2 same, merged, taken, none]
  · obtain ⟨inside, dropped⟩ := dead x member
    refine ⟨folds ▸ inside, fun j bound same => ?_⟩
    exact dropped (same ▸ live j bound)

/-- The doubled constant is folded and the sum goes into its cut-off, so the constant and the sum
are removed. -/
theorem optimize_counts_shift :
    ∃ g counts τ, Shift.function.optimize .infer Shift.workspace.store = .ok (g, counts) τ ∧
      counts = ⟨1, 0, 1, 2⟩ ∧ g.size = 4 ∧ g.nodes ≠ Shift.function.nodes := by
  have fits : Shift.function.Fits := by decide
  obtain ⟨g, counts, τ, made, size, -, same, -⟩ :=
    (optimize_counts Shift.reachable Shift.member .infer).resolve_right fun past => past.1 fits
  have seen : (match Shift.function.optimize .infer Shift.workspace.store with
      | .ok (_, counts) _ => some counts
      | .error _ _ => none) = some ⟨1, 0, 1, 2⟩ := by
    decide +kernel
  rw [made] at seen
  obtain rfl := Option.some.inj seen
  have nodes : Shift.function.size = 6 := by decide
  have gone : g.size + 2 = 6 := size.trans nodes
  refine ⟨g, _, τ, made, rfl, by omega, fun unchanged => ?_⟩
  cases same.2 unchanged

end TensorGraph
