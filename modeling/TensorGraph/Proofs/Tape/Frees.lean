import TensorGraph.Proofs.Tape.Slots
import TensorGraph.Tape.Machine

/-!
Releasing buffers changes nothing that a tape leaves. A slot is released after the last
instruction that touches it, so the machines that run a tape with and without releases agree
on every slot that is still touched.
-/

namespace TensorGraph.Tape

/-- The machines differ at most in slots that are not live. -/
structure Machine.Agree (live : Slot → Prop) (s t : Machine) : Prop where
  stores : s.stores = t.stores
  length : s.slots.length = t.slots.length
  slots : ∀ slot, live slot → s.slots[slot]? = t.slots[slot]?

variable {plan : Plan} {threshold : Nat} {μ : Memory} {live live' : Slot → Prop}
  {s t : Machine} {i : Instruction} {dst : Slot}

namespace Machine

theorem Agree.mono (agree : Agree live s t) (fewer : ∀ slot, live' slot → live slot) :
    Agree live' s t :=
  ⟨agree.stores, agree.length, fun slot h => agree.slots slot (fewer slot h)⟩

theorem Agree.set (agree : Agree live s t) (dst : Slot) (content : Option Buffer) :
    Agree live { s with slots := s.slots.set dst content }
      { t with slots := t.slots.set dst content } := by
  refine ⟨agree.stores, by simpa using agree.length, fun slot h => ?_⟩
  rw [List.getElem?_set, List.getElem?_set, agree.length, agree.slots slot h]

theorem Agree.read (agree : Agree live s t) {slot : Slot} (h : live slot) :
    s.read slot = t.read slot := by
  rw [Machine.read, Machine.read, agree.slots slot h]

theorem Agree.result (agree : Agree live s t) (reads : ∀ slot ∈ i.reads, live slot) (dst : Slot)
    (old : Buffer) : result plan threshold μ s dst old i = result plan threshold μ t dst old i := by
  have one {slot : Slot} (read : i.reads = [slot]) : s.read slot = t.read slot :=
    agree.read (reads slot (by rw [read]; exact List.mem_singleton_self slot))
  have two {a b : Slot} (read : i.reads = [a, b]) : s.read a = t.read a ∧ s.read b = t.read b :=
    ⟨agree.read (reads a (by simp [read])), agree.read (reads b (by simp [read]))⟩
  cases i with
  | unary | reshape | transpose => simp only [Machine.result, one rfl]
  | binary | addRelu | matmul => simp only [Machine.result, (two rfl).1, (two rfl).2]
  | loadInput | loadConstant | store | free => rfl

theorem step_write (written : i.writes? = some dst) :
    step plan threshold μ s i = (do
      let buffer ← result plan threshold μ { s with slots := s.slots.set dst none } dst
        ((s.slots[dst]?.join).getD #[]) i
      return { s with slots := s.slots.set dst (some buffer) }) := by
  cases i <;> cases written <;> rfl

theorem step_store (src : Slot) (p : Placeholder) :
    step plan threshold μ s (.store src p) = (do
      let buffer ← s.read src
      return { s with stores := s.stores ++ [(p, buffer)] }) := rfl

/-- Machines that agree on what an instruction touches go on in agreement. -/
theorem Agree.step (agree : Agree live s t) (touched : ∀ slot ∈ i.touches, live slot) :
    Lockstep (Agree live) (step plan threshold μ s i) (step plan threshold μ t i) := by
  have reads : ∀ slot ∈ i.reads, live slot := fun slot read =>
    touched slot (List.mem_append_left _ read)
  cases written : i.writes? with
  | some dst =>
    have own : live dst := touched dst (List.mem_append_right _ (by rw [written]; simp))
    rw [step_write written, step_write written, agree.slots dst own,
      (agree.set dst none).result reads]
    refine (Lockstep.refl _).bind fun buffer _ same => ?_
    rw [← same]
    exact .ok (agree.set dst (some buffer))
  | none =>
    cases i with
    | store src p =>
      have own : live src := reads src (List.mem_singleton_self src)
      rw [step_store, step_store, agree.read own, agree.stores]
      refine (Lockstep.refl _).bind fun buffer _ same => ?_
      rw [← same]
      exact .ok ⟨rfl, agree.length, agree.slots⟩
    | free slot => exact .ok (agree.set slot none)
    | _ => cases written

theorem Agree.frees (plan : Plan) (threshold : Nat) (μ : Memory) (agree : Agree live s t)
    {slots : List Slot} (dead : ∀ slot ∈ slots, ¬ live slot) :
    ∃ s', (slots.map Instruction.free).foldlM (Machine.step plan threshold μ) s = .ok s' ∧
      Agree live s' t := by
  induction slots generalizing s with
  | nil => exact ⟨s, rfl, agree⟩
  | cons slot slots ih =>
    have released : Agree live { s with slots := s.slots.set slot none } t := by
      refine ⟨agree.stores, by simpa using agree.length, fun other h => ?_⟩
      have apart : slot ≠ other := fun same => dead slot List.mem_cons_self (same ▸ h)
      rw [List.getElem?_set_ne apart, agree.slots other h]
    exact ih released fun other member => dead other (List.mem_cons_of_mem slot member)

end Machine

/-- The slots released after instruction `k`. -/
def dead (code : List Instruction) (slots k : Nat) : List Slot :=
  (List.range slots).filter fun slot => lastTouch? code slot = some k && k + 1 < code.length

theorem withFrees_eq (code : List Instruction) (slots : Nat) :
    withFrees code slots =
      code.zipIdx.flatMap fun (i, k) => i :: (dead code slots k).map Instruction.free := rfl

theorem lastTouch?_eq (code : List Instruction) (slot : Slot) :
    lastTouch? code slot = lastIndex? (fun i => i.touches.contains slot) code := rfl

/-- Instruction `k` or a later one touches the slot. -/
def Live (code : List Instruction) (k : Nat) (slot : Slot) : Prop :=
  ∃ (j : Nat) (i : Instruction), k ≤ j ∧ code[j]? = some i ∧ slot ∈ i.touches

theorem not_live_of_dead {code : List Instruction} {slots k : Nat} {slot : Slot}
    (member : slot ∈ dead code slots k) : ¬ Live code (k + 1) slot := by
  rintro ⟨j, i, after, found, touched⟩
  have last : lastTouch? code slot = some k := by
    have checked := (List.mem_filter.1 member).2
    simp only [Bool.and_eq_true, decide_eq_true_eq] at checked
    exact checked.1
  rw [lastTouch?_eq] at last
  have before := (lastIndex?_eq_some last).2 j i found (List.elem_eq_true_of_mem touched)
  exact Nat.not_lt_of_le before after

/-- From instruction `k` on, machines that agree on live slots leave the same stores. -/
theorem frees_from (code : List Instruction) (slots : Nat) {rest : List Instruction} {k : Nat}
    (left : code.drop k = rest) {s t : Machine} (agree : s.Agree (Live code k) t) :
    Lockstep (fun s t => s.stores = t.stores)
      (((rest.zipIdx k).flatMap fun (i, k) => i :: (dead code slots k).map Instruction.free).foldlM
        (Machine.step plan threshold μ) s)
      (rest.foldlM (Machine.step plan threshold μ) t) := by
  induction rest generalizing k s t with
  | nil => exact .ok agree.stores
  | cons i rest ih =>
    obtain ⟨found, left'⟩ := drop_eq_cons left
    rw [List.zipIdx_cons, List.flatMap_cons, List.cons_append, List.foldlM_cons, List.foldlM_cons]
    refine (agree.step fun slot touched => ⟨k, i, Nat.le_refl k, found, touched⟩).bind
      fun s' t' agree' => ?_
    have later : s'.Agree (Live code (k + 1)) t' := agree'.mono fun slot live => by
      obtain ⟨j, i', after, there, touched⟩ := live
      exact ⟨j, i', Nat.le_of_succ_le after, there, touched⟩
    obtain ⟨u, freed, agree''⟩ :=
      later.frees plan threshold μ fun slot member => not_live_of_dead member
    rw [List.foldlM_append, freed, ok_bind]
    exact ih left' agree''

theorem withFrees_lockstep (plan : Plan) (threshold : Nat) (μ : Memory) (code : List Instruction)
    (slots : Nat) (s : Machine) :
    Lockstep (fun s t => s.stores = t.stores)
      ((withFrees code slots).foldlM (Machine.step plan threshold μ) s)
      (code.foldlM (Machine.step plan threshold μ) s) := by
  rw [withFrees_eq]
  exact frees_from code slots (rfl : code.drop 0 = code) ⟨rfl, rfl, fun _ _ => rfl⟩

end TensorGraph.Tape
