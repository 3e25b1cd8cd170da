import Mathlib.Data.Finset.Card
import TensorGraph.Proofs.Tape.Allocation

/-!
How many slots a tape has. A value has to be there from its own node to the last one that reads
it, so at each node some number of values of a type are there at once. The most that ever are is
how many slots of the type are made: after each node the slots in use and the released ones add
up to all slots, and a new one is made only when none is released.
-/

namespace TensorGraph

namespace Function

/-- Node `x` makes a value of type `ty`. -/
def makes (f : Function) (ty : TensorType) (x : NodeId) : Bool :=
  f.nodes[x]?.any fun n => !n.op.isSave && n.ty = ty

/-- Node `k` or a later one reads node `x`. -/
def readFrom (f : Function) (k : Nat) (x : NodeId) : Bool :=
  (f.nodes.drop k).any fun n => n.op.operands.contains x

/-- The values of type `ty` that are there at node `i`: its own, and the earlier ones that it or
a later node reads. -/
def needed (f : Function) (ty : TensorType) (i : Nat) : Finset NodeId :=
  (Finset.range (i + 1)).filter fun x => f.makes ty x ∧ (x = i ∨ f.readFrom i x)

/-- The most values of type `ty` that are there at one node. -/
def pressure (f : Function) (ty : TensorType) : Nat :=
  ((List.range f.nodes.length).map fun i => (f.needed ty i).card).foldl max 0

/-- Values made before node `k` that it or a later node reads. -/
def waiting (f : Function) (ty : TensorType) (k : Nat) : Finset NodeId :=
  (Finset.range k).filter fun x => f.makes ty x ∧ f.readFrom k x

/-- Values that node `k` is the last to read. -/
def ended (f : Function) (ty : TensorType) (k : Nat) : Finset NodeId :=
  (Finset.range k).filter fun x => f.makes ty x ∧ f.lastUse? x = some k

/-- Nodes read earlier nodes only. -/
def Ordered (f : Function) : Prop :=
  ∀ (k : Nat) (n : Node), f.nodes[k]? = some n → ∀ x ∈ n.op.operands, x < k

variable {f : Function} {ty : TensorType} {n : Node} {k x : Nat}

theorem makes_eq (found : f.nodes[x]? = some n) :
    f.makes ty x = (!n.op.isSave && n.ty = ty) := by
  simp [makes, found]

theorem readFrom_iff : f.readFrom k x ↔ ∃ j, f.lastUse? x = some j ∧ k ≤ j := by
  simp only [readFrom, List.any_eq_true, List.contains_iff_mem]
  constructor
  · rintro ⟨n, later, member⟩
    obtain ⟨d, found⟩ := List.mem_iff_getElem?.1 later
    rw [List.getElem?_drop] at found
    obtain ⟨j, last, after⟩ := le_lastUse? found member
    exact ⟨j, last, Nat.le_trans (Nat.le_add_right k d) after⟩
  · rintro ⟨j, last, after⟩
    obtain ⟨n, found, member⟩ := lastUse?_eq_some last
    refine ⟨n, List.mem_iff_getElem?.2 ⟨j - k, ?_⟩, member⟩
    rw [List.getElem?_drop, Nat.add_sub_cancel' after, found]

theorem readFrom_of_succ (later : f.readFrom (k + 1) x) : f.readFrom k x := by
  obtain ⟨j, last, after⟩ := readFrom_iff.1 later
  exact readFrom_iff.2 ⟨j, last, Nat.le_of_succ_le after⟩

theorem lastUse?_eq_some_iff :
    f.lastUse? x = some k ↔ f.readFrom k x ∧ ¬ f.readFrom (k + 1) x := by
  simp only [readFrom_iff]
  constructor
  · intro last
    refine ⟨⟨k, last, Nat.le_refl k⟩, ?_⟩
    rintro ⟨j, last', after⟩
    obtain rfl := Option.some.inj (last.symm.trans last')
    exact Nat.not_succ_le_self k after
  · rintro ⟨⟨j, last, after⟩, ended⟩
    rcases Nat.lt_or_eq_of_le after with later | rfl
    · exact (ended ⟨j, last, later⟩).elim
    · exact last

theorem Ordered.readFrom_own (ordered : f.Ordered) (k : Nat) :
    f.readFrom (k + 1) k = (f.lastUse? k).isSome := by
  rw [Bool.eq_iff_iff, readFrom_iff, Option.isSome_iff_exists]
  refine ⟨fun ⟨j, last, _⟩ => ⟨j, last⟩, fun ⟨j, last⟩ => ⟨j, last, ?_⟩⟩
  obtain ⟨n, found, member⟩ := lastUse?_eq_some last
  exact ordered j n found k member

/-- At a node there are the values that were waiting, and its own. -/
theorem card_needed (f : Function) (ty : TensorType) (k : Nat) :
    (f.needed ty k).card = (f.waiting ty k).card + (f.makes ty k).toNat := by
  have before : (Finset.range k).filter (fun x => f.makes ty x ∧ (x = k ∨ f.readFrom k x)) =
      f.waiting ty k := by
    refine Finset.filter_congr fun x inside => ?_
    simp [Nat.ne_of_lt (Finset.mem_range.1 inside)]
  rw [needed, Finset.range_add_one, Finset.filter_insert, before]
  cases own : f.makes ty k with
  | false => simp
  | true => simp [waiting]

/-- Afterwards some wait on, some were read for the last time, and its own may never be read. -/
theorem Ordered.card_needed (ordered : f.Ordered) (ty : TensorType) (k : Nat) :
    (f.needed ty k).card = (f.waiting ty (k + 1)).card + (f.ended ty k).card +
      (f.makes ty k && (f.lastUse? k).isNone).toNat := by
  have split := Finset.card_filter_add_card_filter_not (s := f.waiting ty k)
    fun x => f.readFrom (k + 1) x = true
  have ended : (f.waiting ty k).filter (fun x => ¬ f.readFrom (k + 1) x = true) =
      f.ended ty k := by
    simp only [waiting, Function.ended, Finset.filter_filter, lastUse?_eq_some_iff, and_assoc]
  have still : (f.waiting ty k).filter (fun x => f.readFrom (k + 1) x = true) =
      (Finset.range k).filter fun x => f.makes ty x ∧ f.readFrom (k + 1) x := by
    rw [waiting, Finset.filter_filter]
    refine Finset.filter_congr fun x _ => ⟨fun h => ⟨h.1.1, h.2⟩, fun h => ?_⟩
    exact ⟨⟨h.1, readFrom_of_succ h.2⟩, h.2⟩
  have own : (f.waiting ty (k + 1)).card =
      ((f.waiting ty k).filter fun x => f.readFrom (k + 1) x = true).card +
        (f.makes ty k && (f.lastUse? k).isSome).toNat := by
    rw [still, waiting, Finset.range_add_one, Finset.filter_insert, ordered.readFrom_own]
    cases f.makes ty k <;> cases f.lastUse? k <;> simp
  rw [Function.card_needed, own, ← split, ended]
  cases f.makes ty k <;> cases f.lastUse? k <;> simp
  omega

end Function

namespace Lowering

variable {f : Function} {s t u : Lowering} {n : Node} {ty : TensorType} {k : Nat}

/-- How many slots of type `ty` are released. -/
def spare (s : Lowering) (ty : TensorType) : Nat := s.released.countP (·.1 = ty)

theorem take_cases (s : Lowering) (ty : TensorType) :
    (∃ entry ∈ s.released, entry.1 = ty ∧ s.take ty =
      (entry.2, { s with released := s.released.erase entry, reused := s.reused + 1 })) ∨
    s.spare ty = 0 ∧
      s.take ty = (s.slotTypes.length, { s with slotTypes := s.slotTypes ++ [ty] }) := by
  unfold take
  split
  next entry recorded =>
    have type : entry.1 = ty := by simpa using List.find?_some recorded
    exact .inl ⟨entry, List.mem_of_find?_eq_some recorded, type, rfl⟩
  next absent =>
    refine .inr ⟨List.countP_eq_zero.2 fun entry member => ?_, rfl⟩
    exact List.find?_eq_none.1 absent entry member

/-- What a node does to the slots before its operands are released. -/
inductive Settles (f : Function) (s : Lowering) (n : Node) (u : Lowering) : Prop where
  | save (saves : n.op.isSave = true) (slotOf : u.slotOf = s.slotOf ++ [none])
      (slotTypes : u.slotTypes = s.slotTypes) (reused : u.reused = s.reused)
      (released : u.released = s.released)
  | again {entry : TensorType × Slot} (unsaved : n.op.isSave = false)
      (member : entry ∈ s.released) (type : entry.1 = n.ty)
      (slotOf : u.slotOf = s.slotOf ++ [some entry.2]) (slotTypes : u.slotTypes = s.slotTypes)
      (reused : u.reused = s.reused + 1)
      (released : u.released =
        unread f s.slotOf.length n.ty entry.2 ++ s.released.erase entry)
  | fresh (unsaved : n.op.isSave = false) (none : s.spare n.ty = 0)
      (slotOf : u.slotOf = s.slotOf ++ [some s.slotTypes.length])
      (slotTypes : u.slotTypes = s.slotTypes ++ [n.ty]) (reused : u.reused = s.reused)
      (released : u.released =
        unread f s.slotOf.length n.ty s.slotTypes.length ++ s.released)

theorem settles_of_step (stepped : step f s n = .ok t) :
    ∃ u, Settles f s n u ∧ t = releaseOperands f s.slotOf.length n u := by
  cases unsaved : n.op.isSave with
  | true =>
    obtain ⟨x, p, op⟩ := Op.exists_of_isSave unsaved
    obtain ⟨slot, -, same⟩ := (step_save_eq_ok op).1 stepped
    refine ⟨_, ?_, same⟩
    exact .save unsaved rfl rfl rfl rfl
  | false =>
    obtain ⟨v, lowered, same⟩ := (step_eq_ok unsaved).1 stepped
    obtain ⟨i, cs, -, -, -, slotOf, slotTypes, released, reused⟩ :=
      emits_of_lowerInto unsaved lowered
    refine ⟨_, ?_, same⟩
    rw [placed_eq]
    rcases take_cases s n.ty with ⟨entry, member, type, taken⟩ | ⟨none, taken⟩
    · rw [taken] at slotOf slotTypes released reused
      exact .again unsaved member type (by simp [slotOf, taken]) slotTypes reused
        (by simp [released, taken])
    · rw [taken] at slotOf slotTypes released reused
      exact .fresh unsaved none (by simp [slotOf, taken]) slotTypes reused
        (by simp [released, taken])

/-- Slots made and slots left change by the same, but for the node's own. -/
theorem Settles.balance (settles : Settles f s n u) (found : f.nodes[s.slotOf.length]? = some n)
    (ty : TensorType) :
    u.slotTypes.count ty + s.spare ty +
        (f.makes ty s.slotOf.length && (f.lastUse? s.slotOf.length).isNone).toNat =
      s.slotTypes.count ty + u.spare ty + (f.makes ty s.slotOf.length).toNat := by
  have own (slot : Slot) : (unread f s.slotOf.length n.ty slot).countP (·.1 = ty) =
      (decide (n.ty = ty) && (f.lastUse? s.slotOf.length).isNone).toNat := by
    unfold unread
    cases f.lastUse? s.slotOf.length <;> by_cases type : n.ty = ty <;> simp [type]
  rw [Function.makes_eq found]
  cases settles with
  | save saves slotOf slotTypes reused released =>
    simp [saves, slotTypes, spare, released]
  | @again entry unsaved member type slotOf slotTypes reused released =>
    have taken := (List.perm_cons_erase member).countP_eq (·.1 = ty)
    rw [List.countP_cons, type] at taken
    simp only [spare, released, slotTypes, unsaved, taken, List.countP_append, own]
    by_cases same : n.ty = ty <;> simp [same]
    all_goals omega
  | fresh unsaved none slotOf slotTypes reused released =>
    simp only [spare, released, slotTypes, unsaved, List.countP_append, own, List.count_append,
      List.count_singleton]
    by_cases same : n.ty = ty <;> simp [same]
    all_goals omega

theorem Settles.count_slotTypes (settles : Settles f s n u)
    (found : f.nodes[s.slotOf.length]? = some n) (ty : TensorType) :
    u.slotTypes.count ty =
      s.slotTypes.count ty + (f.makes ty s.slotOf.length && s.spare ty = 0).toNat := by
  rw [Function.makes_eq found]
  cases settles with
  | save saves slotOf slotTypes reused released => simp [saves, slotTypes]
  | @again entry unsaved member type slotOf slotTypes reused released =>
    have some : 0 < s.spare n.ty := List.countP_pos_iff.2 ⟨entry, member, by simp [type]⟩
    by_cases same : n.ty = ty <;> simp_all
    omega
  | fresh unsaved none slotOf slotTypes reused released =>
    by_cases same : n.ty = ty <;> simp_all

variable {id : NodeId} {xs : List NodeId}

/-- The operands have slots, and their nodes are no saves. -/
def Placed (f : Function) (s : Lowering) (xs : List NodeId) : Prop :=
  ∀ x ∈ xs, ∃ slot m, s.slotOf[x]? = some (some slot) ∧ f.nodes[x]? = some m ∧
    m.op.isSave = false

theorem spare_releaseAll (placed : Placed f s xs) (ty : TensorType) :
    (xs.foldl (releaseLast f id) s).spare ty =
      s.spare ty + xs.countP fun x => f.makes ty x && f.lastUse? x = some id := by
  induction xs generalizing s with
  | nil => rfl
  | cons x xs ih =>
    obtain ⟨slot, m, there, source, unsaved⟩ := placed x List.mem_cons_self
    have later : Placed f (releaseLast f id s x) xs := by
      obtain ⟨r, same⟩ := exists_releaseLast f id s x
      rw [same]
      exact fun y member => placed y (List.mem_cons_of_mem x member)
    have first : (releaseLast f id s x).spare ty =
        s.spare ty + (f.makes ty x && f.lastUse? x = some id).toNat := by
      rw [Function.makes_eq source, unsaved]
      by_cases last : f.lastUse? x = some id <;> by_cases same : m.ty = ty <;>
        simp [releaseLast, last, there, source, release, spare, same]
    rw [List.foldl_cons, ih later, first, List.countP_cons]
    cases f.makes ty x && decide (f.lastUse? x = some id) <;> simp
    omega

/-- The operands that are released are the values that end with the node. -/
theorem spare_releaseOperands (found : f.nodes[k]? = some n) (ordered : f.Ordered)
    (placed : Placed f s n.op.operands) (ty : TensorType) :
    (releaseOperands f k n s).spare ty = s.spare ty + (f.ended ty k).card := by
  have once := (nodup_eraseDups n.op.operands).filter
    fun x => f.makes ty x && f.lastUse? x = some k
  have ended : (n.op.operands.eraseDups.filter fun x =>
      f.makes ty x && f.lastUse? x = some k).toFinset = f.ended ty k := by
    ext x
    simp only [Function.ended, List.mem_toFinset, List.mem_filter, List.mem_eraseDups,
      Finset.mem_filter, Finset.mem_range, Bool.and_eq_true, decide_eq_true_eq]
    refine ⟨fun ⟨member, both⟩ => ⟨ordered k n found x member, both⟩, fun ⟨_, both⟩ => ⟨?_, both⟩⟩
    obtain ⟨m, there, member⟩ := Function.lastUse?_eq_some both.2
    obtain rfl := Option.some.inj (found.symm.trans there)
    exact member
  have kept : Placed f s n.op.operands.eraseDups := fun x member =>
    placed x (List.mem_eraseDups.1 member)
  rw [releaseOperands_eq, spare_releaseAll kept, List.countP_eq_length_filter, ← ended,
    List.toFinset_card_of_nodup once]

/-- What holds of the slots after the first `k` nodes. -/
structure Balanced (f : Function) (k : Nat) (s : Lowering) : Prop where
  /-- A slot is released, or holds a value that is still to be read. -/
  balance : ∀ ty, s.slotTypes.count ty = s.spare ty + (f.waiting ty k).card
  most : ∀ ty, s.slotTypes.count ty =
    ((List.range k).map fun i => (f.needed ty i).card).foldl max 0
  /-- A value takes a released slot or a new one. -/
  values : s.reused + s.slotTypes.length = (f.nodes.take k).countP (!·.op.isSave)
  used : ∀ slot < s.slotTypes.length, ∃ x : Nat, s.slotOf[x]? = some (some slot)

theorem Balanced.start (f : Function) : Balanced f 0 .start := by
  constructor <;> simp [Lowering.start, spare, Function.waiting]

theorem Settles.values (settles : Settles f s n u) :
    u.reused + u.slotTypes.length = s.reused + s.slotTypes.length + (!n.op.isSave).toNat := by
  cases settles with
  | save saves slotOf slotTypes reused => simp [saves, slotTypes, reused]
  | again unsaved member type slotOf slotTypes reused =>
    simp [unsaved, slotTypes, reused]
    omega
  | fresh unsaved none slotOf slotTypes reused =>
    simp [unsaved, slotTypes, reused]
    omega

theorem Settles.slotOf (settles : Settles f s n u) : s.slotOf <+: u.slotOf := by
  cases settles with
  | save saves slotOf => exact slotOf ▸ List.prefix_append _ _
  | again unsaved member type slotOf => exact slotOf ▸ List.prefix_append _ _
  | fresh unsaved none slotOf => exact slotOf ▸ List.prefix_append _ _

theorem Settles.used (settles : Settles f s n u)
    (used : ∀ slot < s.slotTypes.length, ∃ x : Nat, s.slotOf[x]? = some (some slot)) :
    ∀ slot < u.slotTypes.length, ∃ x : Nat, u.slotOf[x]? = some (some slot) := by
  intro slot bound
  have old (before : slot < s.slotTypes.length) : ∃ x : Nat, u.slotOf[x]? = some (some slot) := by
    obtain ⟨x, there⟩ := used slot before
    exact ⟨x, getElem?_of_prefix settles.slotOf there⟩
  cases settles with
  | save saves slotOf slotTypes => exact old (slotTypes ▸ bound)
  | again unsaved member type slotOf slotTypes => exact old (slotTypes ▸ bound)
  | fresh unsaved none slotOf slotTypes =>
    rw [slotTypes, List.length_append, List.length_singleton] at bound
    rcases Nat.lt_succ_iff_lt_or_eq.1 bound with before | rfl
    · exact old before
    · exact ⟨s.slotOf.length, by rw [slotOf]; exact List.getElem?_concat_length⟩

theorem Balanced.step (balanced : Balanced f k s) (lowered : Lowered f k s) (ordered : f.Ordered)
    (found : f.nodes[k]? = some n) (stepped : Lowering.step f s n = .ok t) :
    Balanced f (k + 1) t := by
  obtain rfl := lowered.length
  obtain ⟨u, settles, rfl⟩ := settles_of_step stepped
  have placed : Placed f u n.op.operands := by
    intro x member
    obtain ⟨slot, there⟩ := placed_of_step stepped member
    obtain ⟨m, source, -⟩ := lowered.sound.typed x slot there
    have before := ordered _ n found x member
    exact ⟨slot, m, getElem?_of_prefix settles.slotOf there, source,
      (lowered.values x m before source).1 ⟨slot, there⟩⟩
  have spare := spare_releaseOperands found ordered placed
  obtain ⟨r, same⟩ := exists_releaseOperands f s.slotOf.length n u
  rw [same] at spare ⊢
  have counted ty := settles.balance found ty
  constructor
  case balance =>
    intro ty
    have before := balanced.balance ty
    have now := f.card_needed ty s.slotOf.length
    have after := ordered.card_needed ty s.slotOf.length
    have released := spare ty
    have counted := counted ty
    dsimp only at released ⊢
    omega
  case most =>
    intro ty
    have before := balanced.balance ty
    have now := f.card_needed ty s.slotOf.length
    have made := settles.count_slotTypes found ty
    rw [List.range_succ, List.map_append, List.foldl_append, ← balanced.most ty]
    simp only [List.map_cons, List.map_nil, List.foldl_cons, List.foldl_nil, made, now]
    -- Without a spare slot all slots of the type are in use.
    cases f.makes ty s.slotOf.length <;> by_cases none : s.spare ty = 0 <;> simp [none] <;> omega
  case values =>
    rw [List.take_add_one, found, List.countP_append, ← balanced.values]
    cases saves : n.op.isSave <;> simp [settles.values, saves]
  case used => exact settles.used balanced.used

theorem ordered_of_upTo (done : upTo f f.nodes.length = .ok t) : f.Ordered := by
  intro k n found x member
  obtain ⟨i, -, lowers⟩ := exists_lowers done found
  exact (lowers.placed x member).1

theorem balanced_of_upTo (ordered : f.Ordered) (inside : k ≤ f.nodes.length)
    (made : upTo f k = .ok s) : Balanced f k s :=
  upTo_induction (P := Balanced f) (.start f) (fun _ _ _ _ lowered found stepped before =>
    before.step lowered ordered found stepped) inside made

end Lowering

namespace Tape

variable {code : List Instruction} {slots k : Nat} {slot : Slot}

/-- The slots that the last instruction touches, releases not counted. -/
def lastTouched (tape : List Instruction) : List Slot :=
  match (tape.filter (!·.isFree)).getLast? with
  | some i => i.touches.eraseDups
  | none => []

theorem countP_withFrees (plain : ∀ i ∈ code, i.isFree = false) :
    (withFrees code slots).countP (·.isFree) =
      ((List.range code.length).flatMap (dead code slots)).length := by
  have each : code.zipIdx.map (fun entry => (withDead code slots entry).countP (·.isFree)) =
      code.zipIdx.map fun entry => (dead code slots entry.2).length := by
    refine List.map_congr_left fun entry member => ?_
    have own := plain entry.1 (List.fst_mem_of_mem_zipIdx member)
    have all : ((dead code slots entry.2).map Instruction.free).countP (·.isFree) =
        (dead code slots entry.2).length := by
      rw [List.countP_map]
      exact List.countP_eq_length.2 fun _ _ => rfl
    rw [withDead, List.countP_cons_of_neg (by simp [own]), all]
  have numbered : code.zipIdx.map (·.2) = List.range code.length := by
    rw [List.range_eq_range']
    exact List.zipIdx_map_snd 0 code
  rw [withFrees_eq, List.countP_flatMap, List.length_flatMap, ← numbered, List.map_map]
  exact congrArg List.sum each

theorem lastTouch?_eq_some (last : lastTouch? code slot = some k) :
    ∃ i, code[k]? = some i ∧ slot ∈ i.touches := by
  rw [lastTouch?_eq] at last
  obtain ⟨⟨i, found, touched⟩, -⟩ := lastIndex?_eq_some last
  exact ⟨i, found, by simpa using touched⟩

theorem mem_lastTouched (plain : ∀ i ∈ code, i.isFree = false) :
    slot ∈ lastTouched (withFrees code slots) ↔
      ∃ k, lastTouch? code slot = some k ∧ k + 1 = code.length := by
  rw [lastTouched, filter_withFrees plain, List.getLast?_eq_getElem?]
  constructor
  · intro member
    split at member
    next i found =>
      have inside := (List.getElem?_eq_some_iff.1 found).1
      have touched : i.touches.contains slot := by simpa using member
      obtain ⟨k, last, after⟩ := le_lastIndex? (q := fun i => i.touches.contains slot) found touched
      obtain ⟨j, there, -⟩ := lastTouch?_eq_some last
      have bound := (List.getElem?_eq_some_iff.1 there).1
      exact ⟨k, last, by omega⟩
    next => cases member
  · rintro ⟨k, last, ends⟩
    obtain ⟨i, found, touched⟩ := lastTouch?_eq_some last
    rw [← ends, Nat.add_sub_cancel, found]
    exact List.mem_eraseDups.2 touched

theorem nodup_released : ((List.range code.length).flatMap (dead code slots)).Nodup := by
  refine List.nodup_flatMap.2 ⟨fun k _ => nodup_dead, List.nodup_range.imp fun apart slot => ?_⟩
  intro first second
  obtain ⟨-, last, -⟩ := mem_dead.1 first
  obtain ⟨-, last', -⟩ := mem_dead.1 second
  exact apart (Option.some.inj (last.symm.trans last'))

theorem frees_add_lastTouched (plain : ∀ i ∈ code, i.isFree = false)
    (touched : ∀ slot, slot < slots ↔ ∃ i ∈ code, slot ∈ i.touches) :
    (withFrees code slots).countP (·.isFree) + (lastTouched (withFrees code slots)).length =
      slots := by
  have once : (lastTouched (withFrees code slots)).Nodup := by
    unfold lastTouched
    split
    · exact nodup_eraseDups _
    · exact List.nodup_nil
  have apart : ∀ slot ∈ (List.range code.length).flatMap (dead code slots),
      slot ∉ lastTouched (withFrees code slots) := by
    intro slot released last
    obtain ⟨k, -, member⟩ := List.mem_flatMap.1 released
    obtain ⟨-, here, less⟩ := mem_dead.1 member
    obtain ⟨j, there, ends⟩ := (mem_lastTouched plain).1 last
    obtain rfl := Option.some.inj (here.symm.trans there)
    omega
  have all : ((List.range code.length).flatMap (dead code slots) ++
      lastTouched (withFrees code slots)).Perm (List.range slots) := by
    refine (List.perm_ext_iff_of_nodup (nodup_released.append once apart) List.nodup_range).2
      fun slot => ?_
    rw [List.mem_append, List.mem_flatMap, mem_lastTouched plain, List.mem_range]
    constructor
    · rintro (⟨k, -, member⟩ | ⟨k, last, -⟩)
      · exact (mem_dead.1 member).1
      · obtain ⟨i, found, touches⟩ := lastTouch?_eq_some last
        exact (touched slot).2 ⟨i, List.mem_of_getElem? found, touches⟩
    · intro bound
      obtain ⟨i, member, touches⟩ := (touched slot).1 bound
      obtain ⟨j, found⟩ := List.mem_iff_getElem?.1 member
      obtain ⟨k, last, -⟩ := le_lastIndex? (q := fun i => i.touches.contains slot) found
        (List.elem_eq_true_of_mem touches)
      obtain ⟨i', there, -⟩ := lastTouch?_eq_some last
      have inside := (List.getElem?_eq_some_iff.1 there).1
      rcases Nat.lt_or_eq_of_le inside with before | ends
      · exact .inl ⟨k, List.mem_range.2 inside, mem_dead.2 ⟨bound, last, before⟩⟩
      · exact .inr ⟨k, last, ends⟩
  rw [countP_withFrees plain, ← List.length_append, all.length_eq, List.length_range]

end Tape

section

open Lowering

variable {f : Function} {t : Lowering}

theorem Lowering.touched_iff (done : upTo f f.nodes.length = .ok t) (slot : Slot) :
    slot < t.slotTypes.length ↔ ∃ i ∈ t.code, slot ∈ i.touches := by
  have lowered := lowered_of_upTo (Nat.le_refl _) done
  have inside {x : Nat} (there : t.slotOf[x]? = some (some slot)) : slot < t.slotTypes.length := by
    obtain ⟨m, -, typed⟩ := lowered.sound.typed x slot there
    exact (List.getElem?_eq_some_iff.1 typed).1
  constructor
  · intro bound
    obtain ⟨x, there⟩ :=
      (balanced_of_upTo (ordered_of_upTo done) (Nat.le_refl _) done).used slot bound
    obtain ⟨m, source, -⟩ := lowered.sound.typed x slot there
    have early := (List.getElem?_eq_some_iff.1 source).1
    have unsaved := (lowered.values x m early source).1 ⟨slot, there⟩
    obtain ⟨i, found, lowers⟩ := exists_lowers done source
    refine ⟨i, List.mem_of_getElem? found, List.mem_append_right _ ?_⟩
    simp [lowers.writes, unsaved, slot_eq there]
  · rintro ⟨i, member, touched⟩
    obtain ⟨k, found⟩ := List.mem_iff_getElem?.1 member
    obtain ⟨n, source, lowers⟩ := Tape.lowers_of_found done found
    rcases List.mem_append.1 touched with read | written
    · rw [Instruction.reads_of_op? lowers.op, Op.operands_map] at read
      obtain ⟨x, operand, rfl⟩ := List.mem_map.1 read
      obtain ⟨-, a, placed⟩ := lowers.placed x operand
      rw [slot_eq placed]
      obtain ⟨m, -, typed⟩ := lowered.sound.typed x a placed
      exact (List.getElem?_eq_some_iff.1 typed).1
    · rw [lowers.writes] at written
      cases unsaved : n.op.isSave with
      | true => simp [unsaved] at written
      | false =>
        obtain rfl : slot = t.slot k := by simpa [unsaved] using written
        exact (List.getElem?_eq_some_iff.1 (lowers.typed unsaved)).1

end

/-- Any tape that a function is lowered to has as many slots of each type as the function has
values of the type at once, where most are. What it reports adds up: values that found a slot, the
slots themselves, the releases, and without them one instruction for each node in node order. -/
theorem slots_planned_tightly {f : Function} {plan : Plan}
    (lowered : Plan.ofFunction f = .ok plan) :
    (∀ ty, plan.slotTypes.count ty = f.pressure ty) ∧
    plan.stats.slots = plan.slotTypes.length ∧
    plan.stats.reused + plan.stats.slots = f.nodes.countP (!·.op.isSave) ∧
    plan.stats.instructions = plan.instructions.length ∧
    plan.stats.instructions = f.nodes.length + plan.stats.frees ∧
    plan.stats.frees = plan.instructions.countP (·.isFree) ∧
    plan.stats.frees + (Tape.lastTouched plan.instructions).length = plan.stats.slots ∧
    (plan.instructions.filter (!·.isFree)).length = f.nodes.length ∧
    ∃ slotOf : NodeId → Slot, ∀ (k : Nat) (n : Node), f.nodes[k]? = some n →
      ∃ i, (plan.instructions.filter (!·.isFree))[k]? = some i ∧
        i.op? plan.constants = some (n.op.map slotOf) ∧
        i.writes? = if n.op.isSave then none else some (slotOf k) := by
  obtain ⟨t, done, -, instructions, slotTypes, constants, stats⟩ := Plan.ofFunction_eq_ok lowered
  have plain := Tape.plain_code done
  have balanced :=
    Lowering.balanced_of_upTo (Lowering.ordered_of_upTo done) (Nat.le_refl _) done
  have steps : plan.instructions.filter (!·.isFree) = t.code := by
    rw [instructions, Tape.filter_withFrees plain]
  have length : t.code.length = f.nodes.length := Lowering.length_code (Nat.le_refl _) done
  have values := balanced.values
  rw [List.take_length] at values
  have frees := Tape.frees_add_lastTouched plain (Lowering.touched_iff done)
  rw [← instructions] at frees
  have parts := List.length_eq_countP_add_countP (l := plan.instructions) (·.isFree)
  have others : plan.instructions.countP (fun i => decide ¬ i.isFree) = f.nodes.length := by
    rw [← length, ← steps, List.countP_eq_length_filter]
    simp
  rw [stats, steps]
  dsimp only
  refine ⟨fun ty => ?_, ?_, values, rfl, ?_, rfl, frees, length, t.slot, fun k n found => ?_⟩
  · rw [slotTypes]
    exact balanced.most ty
  · rw [slotTypes]
  · omega
  · obtain ⟨i, there, lowers⟩ := Lowering.exists_lowers done found
    exact ⟨i, there, constants ▸ lowers.op, lowers.writes⟩

open Workspace in
/-- Five values share three slots. Two slots are released, and the save touches the third. -/
theorem slots_planned_tightly_shift :
    ∃ plan, Plan.ofFunction Shift.function = .ok plan ∧
      plan.slotTypes.count Shift.handle.ty = 3 ∧ plan.stats.reused = 2 ∧ plan.stats.frees = 2 ∧
      plan.stats.instructions = 8 := by
  obtain ⟨plan, made, seen⟩ := Plan.read_off (f := Shift.function)
    (fun plan => (plan.slotTypes.length, (Tape.lastTouched plan.instructions).length)) (3, 1)
    (by decide)
  obtain ⟨slots, touched⟩ := Prod.mk.inj seen
  obtain ⟨most, all, values, -, instructions, -, frees, -⟩ := slots_planned_tightly made
  have pressure : Shift.function.pressure Shift.handle.ty = 3 := by decide
  have unsaved : Shift.function.nodes.countP (!·.op.isSave) = 5 := by decide
  have nodes : Shift.function.nodes.length = 6 := by decide
  refine ⟨plan, made, (most _).trans pressure, ?_⟩
  omega

end TensorGraph
