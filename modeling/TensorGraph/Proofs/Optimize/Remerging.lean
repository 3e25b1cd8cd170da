import TensorGraph.Proofs.Optimize.Merging
import TensorGraph.Proofs.Optimize.Refolding

/-!
What merging leaves. Every reader is sent to the first node of its key, so a repeated node has no
readers, and among the live nodes no two have the same key. Where no two nodes have the same key,
merging changes nothing.
-/

namespace TensorGraph

/-- No two nodes are interchangeable. -/
def Function.NothingToMerge (f : Function) : Prop :=
  ∀ (i j : Nat) (m n : Node) (key : NodeKey), f.nodes[i]? = some m → f.nodes[j]? = some n →
    m.key? = some key → n.key? = some key → i = j

/-- No two live nodes are interchangeable. -/
def Function.LiveApart (f : Function) : Prop :=
  ∀ (i j : Nat) (m n : Node) (key : NodeKey), f.nodes[i]? = some m → f.nodes[j]? = some n →
    f.live[i]? = some true → f.live[j]? = some true → m.key? = some key → n.key? = some key →
    i = j

/-- A key with its operands renamed. -/
def NodeKey.rename (g : NodeId → NodeId) (key : NodeKey) : NodeKey :=
  { key with operands := key.operands.map g }

theorem Node.key?_rename (n : Node) (g : NodeId → NodeId) :
    (n.rename g).key? = n.key?.map (·.rename g) := by
  obtain ⟨name, op, ty⟩ := n
  cases op <;> rfl

theorem Node.key?_of_save {n : Node} (save : n.op.isSave = true) : n.key? = none := by
  obtain ⟨x, p, op⟩ := Op.exists_of_isSave save
  rw [key?, op]

theorem Node.constant?_of_key? {n : Node} {key : NodeKey} (keyed : n.key? = some key) :
    n.constant? = none := by
  rw [Option.eq_none_iff_forall_ne_some]
  intro t constant
  exact (Node.key?_eq_some keyed).2 t (Node.constant?_eq_some.1 constant)

variable {declared : List Placeholder} {σ : Store} {f : Function} {n : Node} {s : Merging}
  {key : NodeKey} {first : NodeId}

namespace Merging

theorem step_cases (s : Merging) (n : Node) :
    ((n.rename s.redirect).key? = none ∧
      s.step n = { s with done := s.done ++ [n.rename s.redirect] }) ∨
    (∃ key, (n.rename s.redirect).key? = some key ∧ s.find? key = none ∧
      s.step n = { s with
        done := s.done ++ [n.rename s.redirect]
        seen := (key, s.done.length) :: s.seen }) ∨
    ∃ key first, (n.rename s.redirect).key? = some key ∧ s.find? key = some first ∧
      s.step n = { s with
        done := s.done ++ [n.rename s.redirect]
        redirect := fun x => if x = s.done.length then first else s.redirect x
        merged := s.merged + 1 } := by
  cases keyed : (n.rename s.redirect).key? with
  | none => exact .inl ⟨rfl, by simp only [step, keyed]⟩
  | some key =>
    have same : ({ s with done := s.done ++ [n.rename s.redirect] } : Merging).find? key =
        s.find? key := rfl
    cases seen : s.find? key with
    | none => exact .inr (.inl ⟨key, rfl, seen, by simp only [step, keyed, same, seen]⟩)
    | some first =>
      exact .inr (.inr ⟨key, first, rfl, seen, by simp only [step, keyed, same, seen]⟩)

/-- What holds of the nodes gone through: readers are sent to representatives, which stand for
themselves and are on record under their keys. -/
structure Tidy (f : Function) (s : Merging) : Prop where
  done : s.done = (f.nodes.take s.done.length).map (·.rename s.redirect)
  later : ∀ x, s.done.length ≤ x → s.redirect x = x
  idem : ∀ x, s.redirect (s.redirect x) = s.redirect x
  first : ∀ (j : Nat) (n : Node) (key : NodeKey), s.done[j]? = some n → n.key? = some key →
    s.redirect j = j → s.find? key = some j
  recorded : ∀ key j, s.find? key = some j →
    s.redirect j = j ∧ ∃ n, s.done[j]? = some n ∧ n.key? = some key
  moved : ∀ x, s.redirect x ≠ x → s.redirect x < x ∧
    ∃ n key, s.done[x]? = some n ∧ n.key? = some key ∧ s.find? key = some (s.redirect x)
  counted : s.merged = (List.range s.done.length).countP fun x => s.redirect x ≠ x

theorem Tidy.start (f : Function) : Tidy f .start where
  done := rfl
  later _ _ := rfl
  idem _ := rfl
  first j n key found := by simp [Merging.start] at found
  recorded key j found := by simp [Merging.start, Merging.find?] at found
  moved x moved := (moved rfl).elim
  counted := rfl

/-- One more node, where `ρ` sends readers of the earlier ones to the same places. -/
theorem Tidy.concat (tidy : s.Tidy f) (ordered : Topological f.nodes)
    (found : f.nodes[s.done.length]? = some n) {ρ : NodeId → NodeId}
    (same : ∀ x < s.done.length, ρ x = s.redirect x) :
    s.done ++ [n.rename s.redirect] =
      (f.nodes.take (s.done ++ [n.rename s.redirect]).length).map (·.rename ρ) := by
  have renamed {i : Nat} {m : Node} (there : f.nodes[i]? = some m) (le : i ≤ s.done.length) :
      m.rename s.redirect = m.rename ρ :=
    Node.rename_congr fun x member =>
      (same x (Nat.lt_of_lt_of_le (ordered i m there x member) le)).symm
  have before : s.done = (f.nodes.take s.done.length).map (·.rename ρ) := by
    refine tidy.done.trans (List.map_congr_left fun m member => ?_)
    obtain ⟨i, there⟩ := List.mem_iff_getElem?.1 member
    rw [List.getElem?_take] at there
    split at there
    next earlier => exact renamed there (Nat.le_of_lt earlier)
    next => cases there
  rw [List.length_append, List.length_singleton, List.take_add_one, found, List.map_append,
    ← before, renamed found (Nat.le_refl _)]
  rfl

theorem Tidy.recorded_concat (tidy : s.Tidy f) (seen : s.find? key = some first) (n' : Node) :
    first < s.done.length ∧ s.redirect first = first ∧
      ∃ m, (s.done ++ [n'])[first]? = some m ∧ m.key? = some key := by
  obtain ⟨fixed, m, there, keyed⟩ := tidy.recorded key first seen
  have inside := (List.getElem?_eq_some_iff.1 there).1
  exact ⟨inside, fixed, m, by rw [List.getElem?_append_left inside, there], keyed⟩

theorem Tidy.moved_concat (tidy : s.Tidy f) {x : NodeId} (away : s.redirect x ≠ x) (n' : Node) :
    s.redirect x < x ∧ x < s.done.length ∧ ∃ m key, (s.done ++ [n'])[x]? = some m ∧
      m.key? = some key ∧ s.find? key = some (s.redirect x) := by
  obtain ⟨less, m, key, there, keyed, seen⟩ := tidy.moved x away
  have inside := (List.getElem?_eq_some_iff.1 there).1
  exact ⟨less, inside, m, key, by rw [List.getElem?_append_left inside, there], keyed, seen⟩

theorem Tidy.counted_concat (tidy : s.Tidy f) (n' : Node) :
    s.merged = (List.range (s.done ++ [n']).length).countP fun x => s.redirect x ≠ x := by
  have fixed := tidy.later s.done.length (Nat.le_refl _)
  simp [tidy.counted, List.range_succ, fixed]

theorem Tidy.pass (tidy : s.Tidy f) (ordered : Topological f.nodes)
    (found : f.nodes[s.done.length]? = some n) (unkeyed : (n.rename s.redirect).key? = none) :
    Tidy f { s with done := s.done ++ [n.rename s.redirect] } where
  done := tidy.concat ordered found fun _ _ => rfl
  later x after := tidy.later x (by simp at after; omega)
  idem := tidy.idem
  first j m key there keyed fixed := by
    rcases getElem?_concat there with old | ⟨-, rfl⟩
    · exact tidy.first j m key old keyed fixed
    · cases unkeyed.symm.trans keyed
  recorded key j seen := (tidy.recorded_concat seen _).2
  moved x away := by
    obtain ⟨less, -, there⟩ := tidy.moved_concat away (n.rename s.redirect)
    exact ⟨less, there⟩
  counted := tidy.counted_concat _

theorem Tidy.record (tidy : s.Tidy f) (ordered : Topological f.nodes)
    (found : f.nodes[s.done.length]? = some n) (keyed : (n.rename s.redirect).key? = some key)
    (unseen : s.find? key = none) :
    Tidy f { s with
      done := s.done ++ [n.rename s.redirect]
      seen := (key, s.done.length) :: s.seen } := by
  have other {key' : NodeKey} {j : NodeId} (seen : s.find? key' = some j) :
      Merging.find? { s with seen := (key, s.done.length) :: s.seen } key' = some j := by
    have different : key ≠ key' := fun same => by cases (same ▸ unseen).symm.trans seen
    rw [← seen]
    simp [find?, different]
  constructor
  case done => exact tidy.concat ordered found fun _ _ => rfl
  case later =>
    intro x after
    exact tidy.later x (by simp at after; omega)
  case idem => exact tidy.idem
  case first =>
    intro j m key' there keyed' fixed
    rcases getElem?_concat there with old | ⟨rfl, rfl⟩
    · exact other (tidy.first j m key' old keyed' fixed)
    · obtain rfl := Option.some.inj (keyed.symm.trans keyed')
      simp [find?]
  case recorded =>
    intro key' j seen
    by_cases same : key = key'
    · subst same
      have here : s.done.length = j := by simpa [find?] using seen
      subst here
      exact ⟨tidy.later _ (Nat.le_refl _), _, List.getElem?_concat_length, keyed⟩
    · have old : s.find? key' = some j := by simpa [find?, same] using seen
      exact (tidy.recorded_concat old _).2
  case moved =>
    intro x away
    obtain ⟨less, -, m, key', there, keyed', seen⟩ :=
      tidy.moved_concat away (n.rename s.redirect)
    exact ⟨less, m, key', there, keyed', other seen⟩
  case counted => exact tidy.counted_concat _

/-- A node whose key is on record. Its readers are sent to the first one. -/
theorem Tidy.merge (tidy : s.Tidy f) (ordered : Topological f.nodes)
    (found : f.nodes[s.done.length]? = some n) (keyed : (n.rename s.redirect).key? = some key)
    (seen : s.find? key = some first) :
    Tidy f { s with
      done := s.done ++ [n.rename s.redirect]
      redirect := fun x => if x = s.done.length then first else s.redirect x
      merged := s.merged + 1 } := by
  obtain ⟨earlier, fixed, -⟩ := tidy.recorded_concat seen (n.rename s.redirect)
  have different : first ≠ s.done.length := Nat.ne_of_lt earlier
  constructor
  case done => exact tidy.concat ordered found fun x before => if_neg (Nat.ne_of_lt before)
  case later =>
    intro x after
    simp only [List.length_append, List.length_singleton] at after
    dsimp only
    rw [if_neg (Nat.ne_of_gt after)]
    exact tidy.later x (Nat.le_of_lt after)
  case idem =>
    intro x
    dsimp only
    by_cases here : x = s.done.length
    · rw [if_pos here, if_neg different, fixed]
    · -- A node that is sent away is sent to an earlier one.
      have apart : s.redirect x ≠ s.done.length := by
        by_cases away : s.redirect x = x
        · rwa [away]
        · obtain ⟨less, inside, -⟩ := tidy.moved_concat away n
          exact Nat.ne_of_lt (Nat.lt_trans less inside)
      rw [if_neg here, if_neg apart, tidy.idem]
  case first =>
    intro j m key' there keyed' fixed'
    dsimp only at fixed'
    by_cases here : j = s.done.length
    · rw [if_pos here] at fixed'
      exact (different (fixed'.trans here)).elim
    · rw [if_neg here] at fixed'
      rcases getElem?_concat there with old | ⟨same, -⟩
      · exact tidy.first j m key' old keyed' fixed'
      · exact (here same).elim
  case recorded =>
    intro key' j seen'
    obtain ⟨inside, fixed', there⟩ := tidy.recorded_concat seen' (n.rename s.redirect)
    refine ⟨?_, there⟩
    dsimp only
    rw [if_neg (Nat.ne_of_lt inside), fixed']
  case moved =>
    intro x away
    dsimp only at away ⊢
    by_cases here : x = s.done.length
    · subst here
      rw [if_pos rfl]
      exact ⟨earlier, _, key, List.getElem?_concat_length, keyed, seen⟩
    · rw [if_neg here] at away ⊢
      obtain ⟨less, -, there⟩ := tidy.moved_concat away (n.rename s.redirect)
      exact ⟨less, there⟩
  case counted =>
    have before : (List.range s.done.length).countP (fun x =>
        (if x = s.done.length then first else s.redirect x) ≠ x) = s.merged := by
      rw [tidy.counted]
      refine List.countP_congr fun x inside => ?_
      rw [if_neg (Nat.ne_of_lt (List.mem_range.1 inside))]
    simp only [List.length_append, List.length_singleton, List.range_succ, List.countP_append,
      before]
    simp [different]

theorem Tidy.merged_eq_zero (tidy : s.Tidy f) : s.merged = 0 ↔ ∀ x, s.redirect x = x := by
  rw [tidy.counted, List.countP_eq_zero]
  constructor
  · intro none x
    by_cases inside : x < s.done.length
    · simpa using none x (List.mem_range.2 inside)
    · exact tidy.later x (Nat.le_of_not_lt inside)
  · intro all x _
    simp [all x]

theorem Tidy.step (tidy : s.Tidy f) (ordered : Topological f.nodes)
    (found : f.nodes[s.done.length]? = some n) : (s.step n).Tidy f := by
  rcases s.step_cases n with ⟨unkeyed, stepped⟩ | ⟨key, keyed, unseen, stepped⟩ |
    ⟨key, first, keyed, seen, stepped⟩
  · rw [stepped]
    exact tidy.pass ordered found unkeyed
  · rw [stepped]
    exact tidy.record ordered found keyed unseen
  · rw [stepped]
    exact tidy.merge ordered found keyed seen

theorem Tidy.run (ordered : Topological f.nodes) (rest : List Node) {s : Merging}
    (tidy : s.Tidy f) (left : f.nodes.drop s.done.length = rest)
    (inside : s.done.length ≤ f.nodes.length) :
    (rest.foldl Merging.step s).Tidy f ∧
      (rest.foldl Merging.step s).done.length = f.nodes.length := by
  induction rest generalizing s with
  | nil => exact ⟨tidy, Nat.le_antisymm inside (List.drop_eq_nil_iff.1 left)⟩
  | cons n rest ih =>
    obtain ⟨found, left⟩ := drop_eq_cons left
    have bound := (List.getElem?_eq_some_iff.1 found).1
    have length := s.length_step n
    exact ih (tidy.step ordered found) (length ▸ left) (length ▸ bound)

end Merging
namespace Function

/-- How the nodes are gone through. -/
def merging (f : Function) : Merging := f.nodes.foldl Merging.step .start

theorem merging_tidy (ordered : Topological f.nodes) : f.merging.Tidy f ∧
    f.merging.done = f.nodes.map (·.rename f.merging.redirect) := by
  obtain ⟨tidy, length⟩ := Merging.Tidy.run ordered f.nodes (.start f) rfl (Nat.zero_le _)
  have done := tidy.done
  rw [length, List.take_length] at done
  exact ⟨tidy, done⟩

theorem mergeCommon_tidy (ordered : Topological f.nodes) : ∃ s : Merging, s.Tidy f ∧
    s.done = f.nodes.map (·.rename s.redirect) ∧
    f.mergeCommon = ({ f with nodes := s.done }, s.merged) := by
  obtain ⟨tidy, nodes⟩ := merging_tidy ordered
  exact ⟨f.merging, tidy, nodes, rfl⟩

theorem mergeCommon_nodes (ordered : Topological f.nodes) :
    f.mergeCommon.1.nodes = f.nodes.map (·.rename f.merging.redirect) :=
  (merging_tidy ordered).2

/-- Nodes that others stand for have no readers. -/
theorem redirect_of_read (ordered : Topological f.nodes) (member : n ∈ f.mergeCommon.1.nodes)
    {x : NodeId} (read : x ∈ n.op.operands) : f.merging.redirect x = x := by
  rw [mergeCommon_nodes ordered] at member
  obtain ⟨m, -, rfl⟩ := List.mem_map.1 member
  rw [Node.rename, Op.operands_map] at read
  obtain ⟨y, -, rfl⟩ := List.mem_map.1 read
  exact (merging_tidy ordered).1.idem y

theorem redirect_of_live (ordered : Topological f.nodes) {i : Nat}
    (live : f.mergeCommon.1.live[i]? = some true) : f.merging.redirect i = i := by
  obtain ⟨n, found⟩ := exists_of_live live
  rcases live_cases found live with save | ⟨j, reader, there, -, read⟩
  · by_contra away
    obtain ⟨-, m, key, source, keyed, -⟩ := (merging_tidy ordered).1.moved i away
    obtain rfl := Option.some.inj (found.symm.trans source)
    cases (Node.key?_of_save save).symm.trans keyed
  · rw [Nat.zero_add] at read
    exact redirect_of_read ordered (List.mem_of_getElem? there) read

/-- Merging changes nothing exactly when it merges nothing, which is when no two nodes have the
same key. -/
theorem nothingToMerge_iff (ordered : Topological f.nodes) :
    f.NothingToMerge ↔ f.mergeCommon.2 = 0 := by
  obtain ⟨s, tidy, nodes, merged⟩ := mergeCommon_tidy ordered
  rw [merged, tidy.merged_eq_zero]
  have kept {x i : Nat} {m : Node} (fixed : ∀ y < x, s.redirect y = y) (le : i ≤ x)
      (found : f.nodes[i]? = some m) : m.rename s.redirect = m :=
    Node.rename_self fun y member =>
      fixed y (Nat.lt_of_lt_of_le (ordered i m found y member) le)
  constructor
  · intro nothing x
    -- The first node to be sent away would have the key of an earlier one.
    induction x using Nat.strongRecOn with
    | ind x fixed =>
      by_contra away
      obtain ⟨less, m, key, there, keyed, seen⟩ := tidy.moved x away
      obtain ⟨-, r, source, keyed'⟩ := tidy.recorded key _ seen
      rw [nodes, List.getElem?_map] at there source
      obtain ⟨m', found, rfl⟩ := Option.map_eq_some_iff.1 there
      obtain ⟨r', found', rfl⟩ := Option.map_eq_some_iff.1 source
      rw [kept fixed (Nat.le_refl x) found] at keyed
      rw [kept fixed (Nat.le_of_lt less) found'] at keyed'
      exact Nat.ne_of_lt less (nothing _ _ r' m' key found' found keyed' keyed)
  · intro fixed i j m n key left right leftKey rightKey
    have there {i : Nat} {m : Node} (found : f.nodes[i]? = some m) : s.done[i]? = some m := by
      rw [nodes, List.getElem?_map, found, Option.map_some,
        kept (fun y _ => fixed y) (Nat.le_refl i) found]
    have first := tidy.first i m key (there left) leftKey (fixed i)
    have second := tidy.first j n key (there right) rightKey (fixed j)
    exact Option.some.inj (first.symm.trans second)

theorem NothingToMerge.mergeCommon (nothing : f.NothingToMerge) (ordered : Topological f.nodes) :
    f.mergeCommon = (f, 0) := by
  have none := (nothingToMerge_iff ordered).1 nothing
  obtain ⟨s, tidy, nodes, merged⟩ := mergeCommon_tidy ordered
  rw [merged] at none ⊢
  have fixed := tidy.merged_eq_zero.1 none
  have same : s.done = f.nodes := by
    rw [nodes]
    exact (List.map_congr_left fun n _ => Node.rename_self fun x _ => fixed x).trans
      (List.map_id _)
  exact Prod.ext (by rw [same]) none

/-- A live node stands for itself, so it is the only live one of its key. -/
theorem liveApart_mergeCommon (ordered : Topological f.nodes) : f.mergeCommon.1.LiveApart := by
  intro i j m n key left right leftLive rightLive leftKey rightKey
  have first := (merging_tidy ordered).1.first
  have here := first i m key left leftKey (redirect_of_live ordered leftLive)
  have there := first j n key right rightKey (redirect_of_live ordered rightLive)
  exact Option.some.inj (here.symm.trans there)

theorem NothingToFold.mergeCommon (nothing : f.NothingToFold) (ordered : Topological f.nodes) :
    f.mergeCommon.1.NothingToFold := by
  obtain ⟨s, tidy, nodes, merged⟩ := mergeCommon_tidy ordered
  rw [merged]
  intro m member computation
  dsimp only at member ⊢
  rw [nodes] at member
  obtain ⟨n, present, rfl⟩ := List.mem_map.1 member
  rw [Node.rename, Op.isComputation_map] at computation
  obtain ⟨x, read, other⟩ := nothing n present computation
  refine ⟨s.redirect x, ?_, ?_⟩
  · rw [Node.rename, Op.operands_map]
    exact List.mem_map_of_mem read
  · by_cases fixed : s.redirect x = x
    · rw [fixed, nodes, List.getElem?_map]
      cases found : f.nodes[x]? with
      | none => rfl
      | some r =>
        rw [found] at other
        simpa using other
    · obtain ⟨-, r, key, -, -, seen⟩ := tidy.moved x fixed
      obtain ⟨-, r', there, keyed⟩ := tidy.recorded key _ seen
      rw [there, Option.bind_some, Node.constant?_of_key? keyed]

theorem LiveApart.prune (apart : f.LiveApart) (lawful : f.Lawful declared σ) :
    f.prune.1.NothingToMerge := by
  intro i j m n key left right leftKey rightKey
  obtain ⟨a, m, first, firstLive, rfl, rfl⟩ := prune_getElem? left
  obtain ⟨b, n, second, secondLive, rfl, rfl⟩ := prune_getElem? right
  rw [Node.key?_rename] at leftKey rightKey
  obtain ⟨k, keyed, rfl⟩ := Option.map_eq_some_iff.1 leftKey
  obtain ⟨k', keyed', same⟩ := Option.map_eq_some_iff.1 rightKey
  have injective : ∀ x ∈ k'.operands, ∀ y ∈ k.operands, f.position x = f.position y → x = y := by
    rw [(Node.key?_eq_some keyed).1, (Node.key?_eq_some keyed').1]
    intro x right y left same
    exact position_injective (lawful.live_operand second secondLive right)
      (lawful.live_operand first firstLive left) same
  obtain ⟨kind, operands, ty, placeholder⟩ := k
  obtain ⟨kind', operands', ty', placeholder'⟩ := k'
  obtain ⟨rfl, operands, rfl, rfl⟩ := NodeKey.mk.inj same
  obtain rfl := eq_of_map_eq injective operands
  rw [apart a b m n _ first second firstLive secondLive keyed keyed']

end Function
end TensorGraph
