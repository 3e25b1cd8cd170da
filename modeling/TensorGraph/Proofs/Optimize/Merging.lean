import TensorGraph.Optimize.Merging
import TensorGraph.Proofs.Optimize.Rewriting

/-!
Merging. Readers are only ever redirected to an earlier node of the same type that yields
the same value, which two nodes with equal keys do. For reads of placeholders this rests on
the module telling its placeholders apart.
-/

namespace TensorGraph

namespace Op

variable {ι : Type}

/-- Apart from constants, an operation is known by its kind, its operands and its
placeholder. -/
theorem eq_of_parts {op op' : Op ι} (kind : op.kind = op'.kind)
    (operands : op.operands = op'.operands) (named : op.placeholder? = op'.placeholder?)
    (other : ∀ t, op ≠ .constant t) : op = op' := by
  cases op <;> cases op' <;> simp_all [Op.kind, Op.operands, placeholder?]

end Op

variable {declared : List Placeholder} {σ : Store} {f : Function} {m n : Node} {i : Nat}
  {s : Merging}

/-- A module's placeholders are known by their ids. -/
def Placeholder.Apart (declared : List Placeholder) : Prop :=
  ∀ p ∈ declared, ∀ q ∈ declared, p.id = q.id → p = q

theorem Node.key?_eq_some {key : NodeKey} (keyed : n.key? = some key) :
    key = ⟨n.op.kind, n.op.operands, n.ty, n.op.placeholder?.map (·.id)⟩ ∧
      ∀ t, n.op ≠ .constant t := by
  unfold key? at keyed
  split at keyed
  · cases keyed
  · cases keyed
  next other _ => exact ⟨(Option.some.inj keyed).symm, other⟩

theorem Node.eq_of_key? (apart : Placeholder.Apart declared)
    (left : ∀ p, m.op.placeholder? = some p → p ∈ declared)
    (right : ∀ p, n.op.placeholder? = some p → p ∈ declared) {key : NodeKey}
    (first : m.key? = some key) (second : n.key? = some key) : m.op = n.op ∧ m.ty = n.ty := by
  obtain ⟨rfl, other⟩ := key?_eq_some first
  obtain ⟨same, -⟩ := key?_eq_some second
  obtain ⟨kind, operands, type, id⟩ := NodeKey.mk.inj same
  refine ⟨Op.eq_of_parts kind operands ?_ other, type⟩
  cases hp : m.op.placeholder? with
  | none =>
    rw [hp] at id
    exact (Option.map_eq_none_iff.1 id.symm).symm
  | some p =>
    rw [hp] at id
    obtain ⟨q, hq, same⟩ := Option.map_eq_some_iff.1 id.symm
    rw [hq, apart p (left p hp) q (right q hq) same.symm]

/-- `ρ` sends readers to nodes that come no later, with the same types and values. -/
structure Redirects (σ : Store) (f : Function) (ρ : NodeId → NodeId) : Prop where
  le : ∀ x : Nat, ρ x ≤ x
  type : ∀ x : Nat, f.types[ρ x]? = f.types[x]?
  value : ∀ load val, Evaluates load σ.read f.nodes val → ∀ x, val (ρ x) = val x

theorem Redirects.id (σ : Store) (f : Function) : Redirects σ f id :=
  ⟨fun _ => Nat.le_refl _, fun _ => rfl, fun _ _ _ _ => rfl⟩

theorem Replaces.renamed (lawful : f.Lawful declared σ) (found : f.nodes[i]? = some n)
    {ρ : NodeId → NodeId} (redirects : Redirects σ f ρ) :
    Replaces declared σ f σ i n (n.rename ρ) := by
  have node := lawful.nodes i n found
  refine ⟨⟨node.typed.map fun x member => ?_, node.rank_le, ?_, fun t constant => ?_⟩, rfl,
    Op.target?_map ρ n.op, Op.source?_map ρ n.op, fun load val evaluates => ?_,
    fun load val evaluates => ?_⟩
  · have later := lawful.operand_lt found member
    rw [List.getElem?_take_of_lt later,
      List.getElem?_take_of_lt (Nat.lt_of_le_of_lt (redirects.le x) later)]
    exact redirects.type x
  · intro p named
    exact node.declared p ((Op.placeholder?_map ρ n.op).symm.trans named)
  · rw [Node.constant?_eq_some] at constant
    exact node.held t (Node.constant?_eq_some.2 (Op.map_eq_constant constant))
  · exact (evaluates i n found).map fun x member => redirects.value load val evaluates x
  · rw [Node.saved?_rename]
    exact Node.saved?_congr fun x member => redirects.value load val evaluates x

/-- What holds of the nodes gone through: they replace the function's own, the first of each
key is on record, and redirecting is sound. -/
structure Merging.Sound (declared : List Placeholder) (σ : Store) (f : Function) (s : Merging) :
    Prop where
  redirects : Redirects σ f s.redirect
  replaces : ReplacesFirst declared σ f σ s.done
  seen : ∀ entry ∈ s.seen, ∃ m, s.done[entry.2]? = some m ∧ m.key? = some entry.1

namespace Merging

theorem Sound.start (declared : List Placeholder) (σ : Store) (f : Function) :
    Sound declared σ f .start :=
  ⟨.id σ f, .nil, fun entry member => by simp [Merging.start] at member⟩

theorem Sound.find? (sound : s.Sound declared σ f) {key : NodeKey} {first : NodeId}
    (found : s.find? key = some first) :
    ∃ m, s.done[first]? = some m ∧ m.key? = some key := by
  obtain ⟨entry, recorded, rfl⟩ := Option.map_eq_some_iff.1 found
  have same : entry.1 = key := by simpa using List.find?_some recorded
  exact same ▸ sound.seen entry (List.mem_of_find?_eq_some recorded)

/-- Readers of a node may be sent to an earlier one with an equal key. -/
theorem Sound.redirect (sound : s.Sound declared σ f) (apart : Placeholder.Apart declared)
    {here first : NodeId} {n' old : Node} (found : f.nodes[here]? = some n)
    (replaces : Replaces declared σ f σ here n n') (earlier : first < here)
    (source : f.nodes[first]? = some old) (replaced : Replaces declared σ f σ first old m)
    {key : NodeKey} (left : m.key? = some key) (right : n'.key? = some key) :
    Redirects σ f fun x => if x = here then first else s.redirect x := by
  obtain ⟨op, type⟩ :=
    Node.eq_of_key? apart replaced.lawful.declared replaces.lawful.declared left right
  refine ⟨fun x => ?_, fun x => ?_, fun load val evaluates x => ?_⟩
  · by_cases same : x = here
    · rw [if_pos same, same]
      exact Nat.le_of_lt earlier
    · rw [if_neg same]
      exact sound.redirects.le x
  · by_cases same : x = here
    · rw [if_pos same, same, Function.types_getElem?, Function.types_getElem?, found, source,
        Option.map_some, Option.map_some, ← replaced.type, ← replaces.type, type]
    · rw [if_neg same]
      exact sound.redirects.type x
  · by_cases same : x = here
    · rw [if_pos same, same]
      have kept := replaced.yields load val evaluates
      rw [op, type] at kept
      exact kept.unique (replaces.yields load val evaluates)
    · rw [if_neg same]
      exact sound.redirects.value load val evaluates x

/-- One more node, with its operands redirected, and nothing on record for it. -/
theorem Sound.extend (sound : s.Sound declared σ f) {n' : Node}
    (found : f.nodes[s.done.length]? = some n)
    (replaces : Replaces declared σ f σ s.done.length n n') :
    Sound declared σ f { s with done := s.done ++ [n'] } := by
  refine ⟨sound.redirects, sound.replaces.concat found replaces, fun entry member => ?_⟩
  obtain ⟨m, recorded, key⟩ := sound.seen entry member
  refine ⟨m, ?_, key⟩
  rw [List.getElem?_append_left (List.getElem?_eq_some_iff.1 recorded).1, recorded]

theorem length_step (s : Merging) (n : Node) : (s.step n).done.length = s.done.length + 1 := by
  unfold step
  dsimp only
  split
  · simp
  · split <;> simp

theorem Sound.step (sound : s.Sound declared σ f) (lawful : f.Lawful declared σ)
    (apart : Placeholder.Apart declared) (found : f.nodes[s.done.length]? = some n) :
    (s.step n).Sound declared σ f := by
  have replaces := Replaces.renamed lawful found sound.redirects
  have extended := sound.extend found replaces
  unfold Merging.step
  dsimp only
  split
  next => exact extended
  next key keyed =>
    split
    next first seen =>
      obtain ⟨m, recorded, same⟩ := sound.find? seen
      have earlier := (List.getElem?_eq_some_iff.1 recorded).1
      have inside := Nat.lt_trans earlier (List.getElem?_eq_some_iff.1 found).1
      have source := List.getElem?_eq_getElem inside
      have redirects := sound.redirect apart found replaces earlier source
        (sound.replaces first _ m source recorded) same keyed
      exact ⟨redirects, extended.replaces, extended.seen⟩
    next =>
      refine ⟨sound.redirects, extended.replaces, fun entry member => ?_⟩
      rcases List.mem_cons.1 member with rfl | member
      · exact ⟨_, List.getElem?_concat_length, keyed⟩
      · exact extended.seen entry member

theorem Sound.run (lawful : f.Lawful declared σ) (apart : Placeholder.Apart declared)
    (rest : List Node) {s : Merging} (sound : s.Sound declared σ f)
    (left : f.nodes.drop s.done.length = rest) (inside : s.done.length ≤ f.nodes.length) :
    (rest.foldl Merging.step s).Sound declared σ f ∧
      (rest.foldl Merging.step s).done.length = f.nodes.length := by
  induction rest generalizing s with
  | nil => exact ⟨sound, Nat.le_antisymm inside (List.drop_eq_nil_iff.1 left)⟩
  | cons n rest ih =>
    obtain ⟨found, left⟩ := drop_eq_cons left
    have bound := (List.getElem?_eq_some_iff.1 found).1
    have length := s.length_step n
    exact ih (sound.step lawful apart found) (length ▸ left) (length ▸ bound)

end Merging

theorem Function.Lawful.mergeCommon (lawful : f.Lawful declared σ)
    (apart : Placeholder.Apart declared) : Rewrites declared σ f σ f.mergeCommon.1 := by
  obtain ⟨sound, length⟩ :=
    Merging.Sound.run lawful apart f.nodes (.start declared σ f) rfl (Nat.zero_le _)
  exact .of_replaces lawful (.refl σ) rfl length sound.replaces

end TensorGraph
