import TensorGraph.Proofs.Tape.Frees

/-!
Where things stand on a tape with releases. Each instruction is followed by the releases of the
slots that it is the last to touch. So without its releases a tape is the instructions it was
made from, no slot is released twice, and nothing touches a released slot.
-/

namespace TensorGraph.Tape

variable {code : List Instruction} {slots k p q : Nat} {i : Instruction} {slot : Slot}

/-- Which instruction stands at position `p`, releases not counted. -/
def origin? (code : List Instruction) (p : Nat) : Option Nat :=
  match code[p]? with
  | some i => if i.isFree then none else some ((code.take p).countP (!·.isFree))
  | none => none

/-- Instruction `k` and the releases after it. -/
def withDead (code : List Instruction) (slots : Nat) : Instruction × Nat → List Instruction :=
  fun (i, k) => i :: (dead code slots k).map Instruction.free

/-- Where instruction `k` stands among the releases. -/
def place (code : List Instruction) (slots k : Nat) : Nat :=
  ((code.take k).zipIdx.flatMap (withDead code slots)).length

theorem withFrees_split (found : code[k]? = some i) :
    withFrees code slots = (code.take k).zipIdx.flatMap (withDead code slots) ++
      (i :: ((dead code slots k).map Instruction.free ++
        ((code.drop (k + 1)).zipIdx (k + 1)).flatMap (withDead code slots))) := by
  obtain ⟨inside, rfl⟩ := List.getElem?_eq_some_iff.1 found
  have parts : code.zipIdx = (code.take k).zipIdx ++ (code.drop k).zipIdx k := by
    have joined : (code.take k ++ code.drop k).zipIdx 0 = (code.take k).zipIdx 0 ++
        (code.drop k).zipIdx (0 + (code.take k).length) := List.zipIdx_append
    rwa [List.take_append_drop, List.length_take_of_le (Nat.le_of_lt inside), Nat.zero_add] at joined
  rw [withFrees_eq, parts, List.flatMap_append, List.drop_eq_getElem_cons inside, List.zipIdx_cons,
    List.flatMap_cons, List.cons_append]
  rfl

theorem length_withFrees : (withFrees code slots).length = place code slots code.length := by
  rw [place, List.take_length]
  rfl

theorem place_succ (inside : k < code.length) :
    place code slots (k + 1) = place code slots k + 1 + (dead code slots k).length := by
  have next : code.take (k + 1) = code.take k ++ [code[k]] := by
    rw [List.take_add_one, List.getElem?_eq_getElem inside, Option.toList_some]
  rw [place, next, List.zipIdx_append, List.flatMap_append, List.length_append]
  simp [place, withDead, Nat.min_eq_left (Nat.le_of_lt inside), Nat.add_assoc, Nat.add_comm 1]

theorem place_lt {k' : Nat} (less : k < k') (inside : k' ≤ code.length) :
    place code slots k < place code slots k' := by
  induction less with
  | refl =>
    rw [place_succ inside]
    omega
  | step less ih =>
    have before := ih (Nat.le_of_succ_le inside)
    rw [place_succ inside]
    omega

theorem lt_of_place_lt {k' : Nat} (less : place code slots k < place code slots k')
    (inside : k ≤ code.length) : k < k' := by
  by_contra later
  rcases Nat.lt_or_eq_of_le (Nat.le_of_not_lt later) with above | rfl
  · exact Nat.lt_asymm less (place_lt above inside)
  · exact Nat.lt_irrefl _ less

theorem withFrees_place (found : code[k]? = some i) :
    (withFrees code slots)[place code slots k]? = some i := by
  rw [withFrees_split found, place, List.getElem?_append_right (Nat.le_refl _)]
  simp

/-- Every position belongs to one instruction and its releases. -/
theorem exists_place (inside : p < place code slots k) :
    ∃ k' < k, place code slots k' ≤ p ∧ p < place code slots (k' + 1) := by
  induction k with
  | zero => exact (Nat.not_lt_zero p inside).elim
  | succ k ih =>
    by_cases before : p < place code slots k
    · obtain ⟨k', less, between⟩ := ih before
      exact ⟨k', Nat.lt_succ_of_lt less, between⟩
    · exact ⟨k, Nat.lt_succ_self k, Nat.le_of_not_lt before, inside⟩

/-- What stands at position `p`: an instruction of `code`, or one of the releases after it. -/
inductive Stands (code : List Instruction) (slots p : Nat) : Instruction → Prop where
  | step {k : Nat} {i : Instruction} (here : p = place code slots k) (found : code[k]? = some i) :
      Stands code slots p i
  | release {k r : Nat} {slot : Slot} (here : p = place code slots k + 1 + r)
      (inside : k < code.length) (released : (dead code slots k)[r]? = some slot) :
      Stands code slots p (.free slot)

theorem stands_of_found (found : (withFrees code slots)[p]? = some i) : Stands code slots p i := by
  have inside := (List.getElem?_eq_some_iff.1 found).1
  rw [length_withFrees] at inside
  obtain ⟨k, bound, low, high⟩ := exists_place inside
  obtain ⟨d, rfl⟩ := Nat.exists_eq_add_of_le low
  rw [place_succ bound] at high
  have there := List.getElem?_eq_getElem bound
  rw [withFrees_split there, place, List.getElem?_append_right (Nat.le_add_right _ _),
    Nat.add_sub_cancel_left] at found
  cases d with
  | zero => exact .step rfl (there.trans found)
  | succ r =>
    have less : r < (dead code slots k).length := by omega
    have released := List.getElem?_eq_getElem less
    rw [List.getElem?_cons_succ, List.getElem?_append_left (by simpa using less),
      List.getElem?_map, released, Option.map_some] at found
    rw [← Option.some.inj found]
    exact .release (by omega) bound released

theorem mem_dead : slot ∈ dead code slots k ↔
    slot < slots ∧ lastTouch? code slot = some k ∧ k + 1 < code.length := by
  simp [dead]

theorem nodup_dead : (dead code slots k).Nodup := List.nodup_range.filter _

theorem le_of_touches (released : slot ∈ dead code slots k) {k' : Nat} (found : code[k']? = some i)
    (touched : slot ∈ i.touches) : k' ≤ k := by
  by_contra later
  exact not_live_of_dead released ⟨k', i, Nat.lt_of_not_le later, found, touched⟩

-- The instructions themselves release nothing.

section

variable (plain : ∀ i ∈ code, i.isFree = false)

include plain

theorem filter_withDead (xs : List Instruction) (own : ∀ i ∈ xs, i ∈ code) (k : Nat) :
    ((xs.zipIdx k).flatMap (withDead code slots)).filter (!·.isFree) = xs := by
  induction xs generalizing k with
  | nil => rfl
  | cons x xs ih =>
    have rest := ih (fun i member => own i (List.mem_cons_of_mem x member)) (k + 1)
    have first := plain x (own x List.mem_cons_self)
    have released : ((dead code slots k).map Instruction.free).filter (!·.isFree) = [] := by
      simp [Instruction.isFree]
    rw [List.zipIdx_cons, List.flatMap_cons, List.filter_append, rest, withDead,
      List.filter_cons_of_pos (by simp [first]), released]
    rfl

theorem filter_withFrees : (withFrees code slots).filter (!·.isFree) = code :=
  filter_withDead plain code (fun _ member => member) 0

theorem origin?_place (inside : k < code.length) :
    origin? (withFrees code slots) (place code slots k) = some k := by
  have there := List.getElem?_eq_getElem inside
  have taken : (withFrees code slots).take (place code slots k) =
      (code.take k).zipIdx.flatMap (withDead code slots) := by
    rw [withFrees_split there, place, List.take_left']
    rfl
  have before : ((code.take k).zipIdx.flatMap (withDead code slots)).filter (!·.isFree) =
      code.take k := filter_withDead plain (code.take k) (fun _ => List.mem_of_mem_take) 0
  rw [origin?, withFrees_place there, taken, List.countP_eq_length_filter, before]
  simp [plain _ (List.getElem_mem inside), Nat.le_of_lt inside]

theorem eq_place_of_origin? (origin : origin? (withFrees code slots) p = some k) :
    p = place code slots k ∧ k < code.length := by
  have here := origin
  unfold origin? at here
  split at here
  next i found =>
    cases stands_of_found found with
    | @step k' _ stands there =>
      have inside := (List.getElem?_eq_some_iff.1 there).1
      rw [stands, origin?_place plain inside] at origin
      obtain rfl := Option.some.inj origin
      exact ⟨stands, inside⟩
    | release => cases here
  next => cases here

theorem free_once (first : (withFrees code slots)[p]? = some (.free slot))
    (second : (withFrees code slots)[q]? = some (.free slot)) : p = q := by
  cases stands_of_found first with
  | step _ own => cases plain _ (List.mem_of_getElem? own)
  | @release k r _ here _ released =>
    cases stands_of_found second with
    | step _ own => cases plain _ (List.mem_of_getElem? own)
    | @release k' r' _ here' _ released' =>
      obtain ⟨-, last, -⟩ := mem_dead.1 (List.mem_of_getElem? released)
      obtain ⟨-, last', -⟩ := mem_dead.1 (List.mem_of_getElem? released')
      obtain rfl := Option.some.inj (last.symm.trans last')
      have bound := (List.getElem?_eq_some_iff.1 released).1
      have same : r = r' := (List.getElem?_inj bound nodup_dead).1 (released.trans released'.symm)
      rw [here, here', same]

theorem untouched_after_free (first : (withFrees code slots)[p]? = some (.free slot))
    (later : p < q) (second : (withFrees code slots)[q]? = some i) : slot ∉ i.touches := by
  intro touched
  cases stands_of_found first with
  | step _ own => cases plain _ (List.mem_of_getElem? own)
  | @release k r _ here inside released =>
    cases stands_of_found second with
    | @step k' _ here' there =>
      have last := le_of_touches (List.mem_of_getElem? released) there touched
      have before : place code slots k' ≤ place code slots k := by
        rcases Nat.lt_or_eq_of_le last with less | rfl
        · exact Nat.le_of_lt (place_lt less (Nat.le_of_lt inside))
        · exact Nat.le_refl _
      omega
    | release => cases touched

end

end TensorGraph.Tape
