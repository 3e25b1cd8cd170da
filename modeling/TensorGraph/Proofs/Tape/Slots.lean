import Mathlib.Data.List.Induction
import TensorGraph.Proofs.Lists
import TensorGraph.Proofs.Graph.Lawful
import TensorGraph.Tape.Plan

/-!
Slots while a function is lowered. `Sound` is the invariant: slots have the types of the
values placed in them, released slots are released once, and no two values that are still
held share a slot or sit in a released one. Taking and releasing keep it.
-/

namespace TensorGraph

section

variable {α : Type} {q : α → Bool} {xs : List α} {i j : Nat} {x : α}

def lastIndex? (q : α → Bool) (xs : List α) : Option Nat :=
  (xs.zipIdx.reverse.find? fun (x, _) => q x).map (·.2)

theorem lastIndex?_concat (q : α → Bool) (xs : List α) (x : α) :
    lastIndex? q (xs ++ [x]) = if q x then some xs.length else lastIndex? q xs := by
  rw [lastIndex?, List.zipIdx_append, List.reverse_append]
  cases here : q x <;> simp [lastIndex?, here]

theorem lastIndex?_eq_some (last : lastIndex? q xs = some j) :
    (∃ x, xs[j]? = some x ∧ q x) ∧ ∀ i x, xs[i]? = some x → q x → i ≤ j := by
  induction xs using List.reverseRecOn with
  | nil => cases last
  | append_singleton xs y ih =>
    rw [lastIndex?_concat] at last
    split at last
    next here =>
      obtain rfl := Option.some.inj last
      refine ⟨⟨y, List.getElem?_concat_length, here⟩, fun i x found holds => ?_⟩
      rcases getElem?_concat found with found | ⟨rfl, -⟩
      · exact Nat.le_of_lt (List.getElem?_eq_some_iff.1 found).1
      · exact Nat.le_refl _
    next elsewhere =>
      obtain ⟨⟨x, found, holds⟩, greatest⟩ := ih last
      refine ⟨⟨x, ?_, holds⟩, fun i z there holds' => ?_⟩
      · rw [List.getElem?_append_left (List.getElem?_eq_some_iff.1 found).1, found]
      · rcases getElem?_concat there with there | ⟨rfl, same⟩
        · exact greatest i z there holds'
        · exact (elsewhere (same ▸ holds')).elim

theorem le_lastIndex? (found : xs[i]? = some x) (holds : q x) :
    ∃ j, lastIndex? q xs = some j ∧ i ≤ j := by
  cases last : lastIndex? q xs with
  | some j => exact ⟨j, rfl, (lastIndex?_eq_some last).2 i x found holds⟩
  | none =>
    exfalso
    rw [lastIndex?, Option.map_eq_none_iff, List.find?_eq_none] at last
    have present : (x, i) ∈ xs.zipIdx.reverse := by
      rw [List.mem_reverse, List.mem_zipIdx_iff_getElem?]
      exact found
    exact last _ present holds

end

namespace Function

variable {f : Function} {n : Node} {i j k x : Nat}

theorem lastUse?_eq (f : Function) (x : NodeId) :
    f.lastUse? x = lastIndex? (fun n => n.op.operands.contains x) f.nodes := rfl

theorem le_lastUse? (found : f.nodes[k]? = some n) (member : x ∈ n.op.operands) :
    ∃ j, f.lastUse? x = some j ∧ k ≤ j := by
  rw [lastUse?_eq]
  exact le_lastIndex? found (List.elem_eq_true_of_mem member)

theorem lastUse?_eq_some (last : f.lastUse? x = some j) :
    ∃ n, f.nodes[j]? = some n ∧ x ∈ n.op.operands := by
  rw [lastUse?_eq] at last
  obtain ⟨⟨n, found, read⟩, -⟩ := lastIndex?_eq_some last
  exact ⟨n, found, by simpa using read⟩

/-- The value of node `x` is there before node `k` and is read there or later. -/
def Held (f : Function) (k x : Nat) : Prop := x < k ∧ ∃ j, f.lastUse? x = some j ∧ k ≤ j

theorem Lawful.held_operand {declared : List Placeholder} {σ : Store}
    (lawful : f.Lawful declared σ) (found : f.nodes[k]? = some n) (member : x ∈ n.op.operands) :
    f.Held k x :=
  ⟨lawful.operand_lt found member, le_lastUse? found member⟩

theorem Held.of_lt (held : f.Held (k + 1) x) (before : x < k) : f.Held k x := by
  obtain ⟨-, j, last, after⟩ := held
  exact ⟨before, j, last, Nat.le_of_succ_le after⟩

theorem Held.of_succ (held : f.Held (k + 1) x) :
    (f.Held k x ∨ x = k) ∧ (f.lastUse? x).isSome ∧ f.lastUse? x ≠ some k := by
  have ⟨bound, j, last, after⟩ := held
  refine ⟨?_, by rw [last]; rfl, fun here => ?_⟩
  · rcases Nat.lt_succ_iff_lt_or_eq.1 bound with before | same
    · exact .inl (held.of_lt before)
    · exact .inr same
  · rw [Option.some.inj (last.symm.trans here)] at after
    exact Nat.not_succ_le_self k after

end Function

namespace Lowering

/-- What holds of the slots while the values of the nodes in `held` are still needed. -/
structure Sound (f : Function) (s : Lowering) (held : Nat → Prop) : Prop where
  typed : ∀ i slot : Nat, s.slotOf[i]? = some (some slot) →
    ∃ n, f.nodes[i]? = some n ∧ s.slotTypes[slot]? = some n.ty
  released : ∀ entry ∈ s.released, s.slotTypes[entry.2]? = some entry.1
  once : (s.released.map (·.2)).Nodup
  apart : ∀ i slot : Nat, held i → s.slotOf[i]? = some (some slot) →
    slot ∉ s.released.map (·.2)
  distinct : ∀ i j slot : Nat, held i → held j → s.slotOf[i]? = some (some slot) →
    s.slotOf[j]? = some (some slot) → i = j

variable {f : Function} {s : Lowering} {held held' : Nat → Prop} {ty : TensorType} {slot : Slot}

theorem Sound.start (f : Function) (held : Nat → Prop) : Sound f .start held := by
  refine ⟨fun i slot found => ?_, fun entry member => (nomatch member), List.nodup_nil,
    fun i slot _ found => ?_, fun i j slot _ _ found => ?_⟩ <;> simp [Lowering.start] at found

theorem Sound.mono (sound : Sound f s held) (fewer : ∀ i, held' i → held i) : Sound f s held' :=
  ⟨sound.typed, sound.released, sound.once, fun i slot h => sound.apart i slot (fewer i h),
    fun i j slot hi hj => sound.distinct i j slot (fewer i hi) (fewer j hj)⟩

theorem Sound.release (sound : Sound f s held) (typed : s.slotTypes[slot]? = some ty)
    (fresh : slot ∉ s.released.map (·.2))
    (free : ∀ i : Nat, held i → s.slotOf[i]? ≠ some (some slot)) :
    Sound f (s.release ty slot) held := by
  refine ⟨sound.typed, fun entry member => ?_, List.nodup_cons.2 ⟨fresh, sound.once⟩,
    fun i other h found member => ?_, sound.distinct⟩
  · rcases List.mem_cons.1 member with rfl | old
    · exact typed
    · exact sound.released entry old
  · rcases List.mem_cons.1 member with rfl | old
    · exact free i h found
    · exact sound.apart i other h found old

/-- What taking a slot changes: a released slot of the type is gone from the list, or there is
one more slot. -/
theorem Sound.take (sound : Sound f s held) (ty : TensorType) {dst : Slot} {t : Lowering}
    (taken : s.take ty = (dst, t)) :
    Sound f t held ∧ t.slotTypes[dst]? = some ty ∧ dst ∉ t.released.map (·.2) ∧
      (∀ i : Nat, held i → s.slotOf[i]? ≠ some (some dst)) ∧
      (∃ more, t.slotTypes = s.slotTypes ++ more) ∧
      t.slotOf = s.slotOf ∧ t.code = s.code ∧ t.constants = s.constants := by
  unfold Lowering.take at taken
  split at taken
  next entry recorded =>
    cases taken
    have member := List.mem_of_find?_eq_some recorded
    have same : entry.1 = ty := by simpa using List.find?_some recorded
    have order : s.released.map (·.2) |>.Perm (entry.2 :: (s.released.erase entry).map (·.2)) :=
      (List.perm_cons_erase member).map (·.2)
    have once := order.nodup_iff.1 sound.once
    obtain ⟨gone, rest⟩ := List.nodup_cons.1 once
    refine ⟨⟨sound.typed, fun other there => sound.released other (List.mem_of_mem_erase there),
      rest, fun i slot h found there => sound.apart i slot h found ?_, sound.distinct⟩,
      same ▸ sound.released entry member, gone, fun i h found => sound.apart i entry.2 h found ?_,
      ⟨[], (List.append_nil _).symm⟩, rfl, rfl, rfl⟩
    · exact order.mem_iff.2 (List.mem_cons_of_mem _ there)
    · exact List.mem_map_of_mem member
  next =>
    cases taken
    have inside {slot : Slot} {ty' : TensorType} (known : s.slotTypes[slot]? = some ty') :
        slot < s.slotTypes.length ∧ (s.slotTypes ++ [ty])[slot]? = some ty' := by
      have bound := (List.getElem?_eq_some_iff.1 known).1
      exact ⟨bound, by rw [List.getElem?_append_left bound, known]⟩
    refine ⟨⟨fun i slot found => ?_, fun entry member => (inside (sound.released entry member)).2,
      sound.once, sound.apart, sound.distinct⟩, List.getElem?_concat_length, fun there => ?_,
      fun i h found => ?_, ⟨[ty], rfl⟩, rfl, rfl, rfl⟩
    · obtain ⟨n, source, known⟩ := sound.typed i slot found
      exact ⟨n, source, (inside known).2⟩
    · obtain ⟨entry, member, same⟩ := List.mem_map.1 there
      have bound := (inside (sound.released entry member)).1
      rw [same] at bound
      exact Nat.lt_irrefl _ bound
    · obtain ⟨n, source, known⟩ := sound.typed i _ found
      exact Nat.lt_irrefl _ (inside known).1

theorem Sound.congr (sound : Sound f s held) {t : Lowering} (slotOf : t.slotOf = s.slotOf)
    (slotTypes : t.slotTypes = s.slotTypes) (released : t.released = s.released) :
    Sound f t held := by
  refine ⟨?_, ?_, ?_, ?_, ?_⟩
  · rw [slotOf, slotTypes]
    exact sound.typed
  · rw [released, slotTypes]
    exact sound.released
  · rw [released]
    exact sound.once
  · rw [slotOf, released]
    exact sound.apart
  · rw [slotOf]
    exact sound.distinct

theorem getElem?_length_ne (s : Lowering) (slot : Slot) :
    s.slotOf[s.slotOf.length]? ≠ some (some slot) := by
  rw [List.getElem?_eq_none (Nat.le_refl _)]
  exact nofun

theorem Sound.push_none (sound : Sound f s held) :
    Sound f { s with slotOf := s.slotOf ++ [none] } fun i => held i ∨ i = s.slotOf.length := by
  have old {i : Nat} {slot : Slot} (found : (s.slotOf ++ [none])[i]? = some (some slot)) :
      s.slotOf[i]? = some (some slot) := by
    rcases getElem?_concat found with found | ⟨-, absurd⟩
    · exact found
    · cases absurd
  have known {i : Nat} {slot : Slot} (found : s.slotOf[i]? = some (some slot))
      (either : held i ∨ i = s.slotOf.length) : held i := by
    rcases either with h | rfl
    · exact h
    · exact (s.getElem?_length_ne slot found).elim
  exact ⟨fun i slot found => sound.typed i slot (old found), sound.released, sound.once,
    fun i slot h found => sound.apart i slot (known (old found) h) (old found),
    fun i j slot hi hj atI atJ =>
      sound.distinct i j slot (known (old atI) hi) (known (old atJ) hj) (old atI) (old atJ)⟩

theorem Sound.push_some (sound : Sound f s held) {n : Node}
    (found : f.nodes[s.slotOf.length]? = some n) (typed : s.slotTypes[slot]? = some n.ty)
    (fresh : slot ∉ s.released.map (·.2))
    (free : ∀ i : Nat, held i → s.slotOf[i]? ≠ some (some slot)) :
    Sound f { s with slotOf := s.slotOf ++ [some slot] }
      fun i => held i ∨ i = s.slotOf.length := by
  refine ⟨fun i other there => ?_, sound.released, sound.once, fun i other h there => ?_,
    fun i j other hi hj atI atJ => ?_⟩
  · rcases getElem?_concat there with old | ⟨rfl, same⟩
    · exact sound.typed i other old
    · rw [← Option.some.inj same]
      exact ⟨n, found, typed⟩
  · rcases getElem?_concat there with old | ⟨rfl, same⟩
    · rcases h with h | rfl
      · exact sound.apart i other h old
      · exact (s.getElem?_length_ne _ old).elim
    · rw [← Option.some.inj same]
      exact fresh
  · rcases getElem?_concat atI with oldI | ⟨rfl, sameI⟩ <;>
      rcases getElem?_concat atJ with oldJ | ⟨rfl, sameJ⟩
    · rcases hi with hi | rfl
      · rcases hj with hj | rfl
        · exact sound.distinct i j other hi hj oldI oldJ
        · exact (s.getElem?_length_ne _ oldJ).elim
      · exact (s.getElem?_length_ne _ oldI).elim
    · rcases hi with hi | rfl
      · exact (free i hi (sameJ ▸ oldI)).elim
      · rfl
    · rcases hj with hj | rfl
      · exact (free j hj (sameI ▸ oldJ)).elim
      · rfl
    · rfl

/-- Releases the value of node `x` if node `id` reads it last. -/
def releaseLast (f : Function) (id : NodeId) (s : Lowering) (x : NodeId) : Lowering :=
  if f.lastUse? x = some id then
    match s.slotOf[x]?, f.nodes[x]? with
    | some (some slot), some source => s.release source.ty slot
    | _, _ => s
  else s

theorem releaseOperands_eq (f : Function) (id : NodeId) (n : Node) (s : Lowering) :
    releaseOperands f id n s = n.op.operands.eraseDups.foldl (releaseLast f id) s := rfl

-- Releasing changes what is released and nothing else.

theorem exists_releaseLast (f : Function) (id : NodeId) (s : Lowering) (x : NodeId) :
    ∃ r, releaseLast f id s x = { s with released := r } := by
  unfold releaseLast
  split
  · split
    · exact ⟨_, rfl⟩
    · exact ⟨s.released, rfl⟩
  · exact ⟨s.released, rfl⟩

theorem exists_releaseOperands (f : Function) (id : NodeId) (n : Node) (s : Lowering) :
    ∃ r, releaseOperands f id n s = { s with released := r } := by
  rw [releaseOperands_eq]
  induction n.op.operands.eraseDups generalizing s with
  | nil => exact ⟨s.released, rfl⟩
  | cons x xs ih =>
    obtain ⟨r, first⟩ := exists_releaseLast f id s x
    obtain ⟨r', rest⟩ := ih { s with released := r }
    exact ⟨r', by rw [List.foldl_cons, first, rest]⟩

theorem Sound.releaseLast (sound : Sound f s held) (id : NodeId) {x : Nat} (own : held x) :
    Sound f (releaseLast f id s x) (fun i => held i ∧ ¬ (i = x ∧ f.lastUse? i = some id)) := by
  have fewer : Sound f s fun i => held i ∧ ¬ (i = x ∧ f.lastUse? i = some id) :=
    sound.mono fun i h => h.1
  unfold Lowering.releaseLast
  by_cases last : f.lastUse? x = some id
  · rw [if_pos last]
    split
    next slot source placed found =>
      obtain ⟨n, there, typed⟩ := sound.typed x slot placed
      obtain rfl := Option.some.inj (found.symm.trans there)
      refine fewer.release typed (sound.apart x slot own placed) fun i h same => ?_
      have one := sound.distinct i x slot h.1 own same placed
      exact h.2 ⟨one, one ▸ last⟩
    next => exact fewer
  · rw [if_neg last]
    exact fewer

theorem Sound.releaseAll (sound : Sound f s held) (id : NodeId) {xs : List Nat} (once : xs.Nodup)
    (own : ∀ x ∈ xs, held x) :
    Sound f (xs.foldl (Lowering.releaseLast f id) s)
      (fun i => held i ∧ ¬ (i ∈ xs ∧ f.lastUse? i = some id)) := by
  induction xs generalizing s held with
  | nil => exact sound.mono fun i h => h.1
  | cons x xs ih =>
    obtain ⟨other, rest⟩ := List.nodup_cons.1 once
    have still : ∀ y ∈ xs, held y ∧ ¬ (y = x ∧ f.lastUse? y = some id) := fun y member =>
      ⟨own y (List.mem_cons_of_mem x member), fun h => other (h.1 ▸ member)⟩
    have last := ih (sound.releaseLast id (own x List.mem_cons_self)) rest still
    refine last.mono fun i h => ⟨⟨h.1, fun here => ?_⟩, fun later => ?_⟩
    · exact h.2 ⟨here.1 ▸ List.mem_cons_self, here.2⟩
    · exact h.2 ⟨List.mem_cons_of_mem x later.1, later.2⟩

/-- After a node its operands that no later node reads are released. -/
theorem Sound.releaseOperands (sound : Sound f s held) (id : NodeId) (n : Node)
    (own : ∀ x ∈ n.op.operands, held x) :
    Sound f (Lowering.releaseOperands f id n s)
      (fun i => held i ∧ ¬ (i ∈ n.op.operands ∧ f.lastUse? i = some id)) := by
  rw [releaseOperands_eq]
  have released := sound.releaseAll id (nodup_eraseDups n.op.operands)
    fun x member => own x (List.mem_eraseDups.1 member)
  refine released.mono fun i h => ⟨h.1, fun here => h.2 ?_⟩
  exact ⟨List.mem_eraseDups.1 here.1, here.2⟩

end Lowering
end TensorGraph
