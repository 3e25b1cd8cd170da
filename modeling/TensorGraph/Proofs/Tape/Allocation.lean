import TensorGraph.Proofs.Run.Failure
import TensorGraph.Proofs.Tape.Releases

/-!
Slots on the finished tape. Each instruction finds in the slots it reads what the instructions of
its operands left there, with nothing written or released in between. A machine that runs such a
tape never meets an empty slot.
-/

namespace TensorGraph

namespace Instruction

/-- The operation carried out, on slots instead of nodes. A release carries out none. -/
def op? (constants : List (String × Tensor)) : Instruction → Option (Op Slot)
  | loadInput p _ => some (.input p)
  | loadConstant index _ => constants[index]?.map fun entry => .constant entry.2
  | unary f src _ => some (.unary f src)
  | binary f lhs rhs _ => some (.binary f lhs rhs)
  | addRelu lhs rhs _ => some (.addRelu lhs rhs)
  | matmul lhs rhs .. => some (.matmul lhs rhs)
  | reshape src _ => some (.reshape src)
  | transpose src .. => some (.transpose src)
  | store src p => some (.save src p)
  | free _ => none

variable {i : Instruction} {constants : List (String × Tensor)} {op : Op Slot}

theorem reads_of_op? (carries : i.op? constants = some op) : i.reads = op.operands := by
  cases i with
  | loadConstant index dst =>
    obtain ⟨entry, -, rfl⟩ := Option.map_eq_some_iff.1 carries
    rfl
  | free slot => cases carries
  | _ =>
    cases carries
    rfl

theorem isFree_of_op? (carries : i.op? constants = some op) : i.isFree = false := by
  cases i with
  | free slot => cases carries
  | _ => rfl

theorem isFree_of_touches {slot : Slot} (touched : slot ∈ i.touches) : i.isFree = false := by
  cases i with
  | free other => cases touched
  | _ => rfl

end Instruction

namespace Lowering

variable {f : Function} {s t : Lowering} {n : Node} {k x : Nat} {a dst : Slot} {i : Instruction}
  {cs : List (String × Tensor)}

/-- The slot of a node's value. -/
def slot (s : Lowering) (x : NodeId) : Slot := (s.slotOf[x]?.join).getD 0

theorem slot_eq (placed : s.slotOf[x]? = some (some a)) : s.slot x = a := by
  simp [slot, placed]

theorem Emits.op? (emits : Emits f s.slotOf s.constants.length n dst i cs) (before : Prefix s t)
    (constants : s.constants ++ cs <+: t.constants) :
    i.op? t.constants = some (n.op.map t.slot) := by
  have placed {x : Nat} {a : Slot} (there : s.slotOf[x]? = some (some a)) : t.slot x = a :=
    slot_eq <| getElem?_of_prefix before.slotOf there
  cases emits with
  | input op => simp [Instruction.op?, op, Op.map]
  | @constant c op =>
    have entry : t.constants[s.constants.length]? = some (n.name, c) :=
      getElem?_of_prefix constants (by simp)
    simp [Instruction.op?, op, Op.map, entry]
  | unary op source | reshape op source | transpose op source =>
    simp [Instruction.op?, op, Op.map, placed source]
  | binary op left right | addRelu op left right | matmul op left right =>
    simp [Instruction.op?, op, Op.map, placed left, placed right]

/-- What holds of the instruction that node `k` became, once all nodes are lowered. -/
structure Lowers (f : Function) (t : Lowering) (k : Nat) (n : Node) (i : Instruction) : Prop where
  op : i.op? t.constants = some (n.op.map t.slot)
  writes : i.writes? = if n.op.isSave then none else some (t.slot k)
  typed : n.op.isSave = false → t.slotTypes[t.slot k]? = some n.ty
  placed : ∀ x ∈ n.op.operands, x < k ∧ ∃ a, t.slotOf[x]? = some (some a)
  apart : ∀ (x : Nat) (a : Slot), f.Held k x → t.slotOf[x]? = some (some a) → i.writes? ≠ some a

theorem exists_lowers (done : upTo f f.nodes.length = .ok t) (found : f.nodes[k]? = some n) :
    ∃ i, t.code[k]? = some i ∧ Lowers f t k n i := by
  obtain ⟨s, u, settled, count, stepped, before⟩ := exists_step done found
  have advances := (settled.step found stepped).2
  have earlier := advances.before.trans before
  have length : s.slotOf.length = k := settled.length
  have here {i : Instruction} (code : u.code = s.code ++ [i]) : t.code[k]? = some i := by
    refine getElem?_of_prefix before.code ?_
    rw [code, ← count]
    exact List.getElem?_concat_length
  have operands : ∀ x ∈ n.op.operands, x < k ∧ ∃ a, t.slotOf[x]? = some (some a) := by
    intro x member
    obtain ⟨a, placed⟩ := placed_of_step stepped member
    exact ⟨length ▸ (List.getElem?_eq_some_iff.1 placed).1, a,
      getElem?_of_prefix earlier.slotOf placed⟩
  cases advances with
  | @save x p a op source slotOf code =>
    have own : t.slotOf[x]? = some (some a) := getElem?_of_prefix earlier.slotOf source
    refine ⟨_, here code, ?_, ?_, ?_, operands, ?_⟩
    · simp [Instruction.op?, op, Op.map, slot_eq own]
    · simp [op, Op.isSave, Instruction.writes?]
    · simp [op, Op.isSave]
    · simp [Instruction.writes?]
  | @value dst i cs unsaved emits slotOf code slotTypes constants typed free =>
    have own : t.slotOf[k]? = some (some dst) := by
      refine getElem?_of_prefix before.slotOf ?_
      rw [slotOf, ← length]
      exact List.getElem?_concat_length
    have writes := Tape.writes_of_emits emits
    refine ⟨i, here code, emits.op? earlier (constants ▸ before.constants), ?_, ?_, operands, ?_⟩
    · simp [unsaved, writes, slot_eq own]
    · intro _
      rw [slot_eq own]
      exact getElem?_of_prefix before.slotTypes typed
    · intro x a held placed same
      obtain rfl := Option.some.inj (writes.symm.trans same)
      have old := List.getElem?_eq_getElem (length.symm ▸ held.1 : x < s.slotOf.length)
      have there := getElem?_of_prefix earlier.slotOf old
      exact free x (length.symm ▸ held) (old.trans (there.symm.trans placed))

end Lowering

namespace Tape

variable {f : Function} {plan : Plan} {threshold : Nat} {μ μ' : Memory} {code : List Instruction}
  {slots k p q : Nat} {i : Instruction} {slot dst : Slot} {m m' : Machine} {old : Buffer} {e : Error}

/-- The last instruction before position `p` that writes the slot stands at `q`, and nothing
between them releases it. -/
structure Supplies (code : List Instruction) (q p : Nat) (slot : Slot) : Prop where
  before : q < p
  writes : ∃ i, code[q]? = some i ∧ i.writes? = some slot
  stays : ∀ (r : Nat) (i : Instruction), q < r → r < p → code[r]? = some i →
    i.writes? ≠ some slot ∧ i ≠ .free slot

section

open Lowering

variable {t : Lowering} (done : upTo f f.nodes.length = .ok t)

include done

theorem lowers_of_found (found : t.code[k]? = some i) :
    ∃ n, f.nodes[k]? = some n ∧ Lowers f t k n i := by
  have inside := (List.getElem?_eq_some_iff.1 found).1
  rw [length_code (Nat.le_refl _) done] at inside
  have there := List.getElem?_eq_getElem inside
  obtain ⟨i', found', lowers⟩ := exists_lowers done there
  obtain rfl := Option.some.inj (found.symm.trans found')
  exact ⟨_, there, lowers⟩

theorem plain_code : ∀ i ∈ t.code, i.isFree = false := by
  intro i member
  obtain ⟨k, found⟩ := List.mem_iff_getElem?.1 member
  obtain ⟨n, -, lowers⟩ := lowers_of_found done found
  exact Instruction.isFree_of_op? lowers.op

/-- The slot of an operand still holds what the operand's instruction left there. -/
theorem supplies_operand {n : Node} {x : Nat} (there : f.nodes[k]? = some n)
    (found : t.code[k]? = some i) (lowers : Lowers f t k n i) (member : x ∈ n.op.operands) :
    Supplies (withFrees t.code slots) (place t.code slots x) (place t.code slots k) (t.slot x) := by
  have bound := Nat.le_of_lt (List.getElem?_eq_some_iff.1 found).1
  obtain ⟨earlier, a, placed⟩ := lowers.placed x member
  have read : t.slot x ∈ i.touches := by
    apply List.mem_append_left
    rw [Instruction.reads_of_op? lowers.op, Op.operands_map]
    exact List.mem_map_of_mem member
  have own := slot_eq placed
  obtain ⟨last, used, after⟩ := Function.le_lastUse? there member
  constructor
  case before => exact place_lt earlier bound
  case writes =>
    have inside := Nat.lt_trans earlier (List.getElem?_eq_some_iff.1 there).1
    obtain ⟨j, source, lowers'⟩ := exists_lowers done (List.getElem?_eq_getElem inside)
    have unsaved := ((lowered_of_upTo (Nat.le_refl _) done).values x _ inside
      (List.getElem?_eq_getElem inside)).1 ⟨a, placed⟩
    refine ⟨j, withFrees_place source, ?_⟩
    simp [lowers'.writes, unsaved]
  case stays =>
    intro r j low high stands
    cases stands_of_found stands with
    | @step k' _ here source =>
      subst here
      have inside := Nat.le_of_lt (List.getElem?_eq_some_iff.1 source).1
      obtain ⟨m, -, lowers'⟩ := lowers_of_found done source
      have between := lt_of_place_lt low (Nat.le_trans (Nat.le_of_lt earlier) bound)
      have held : f.Held k' x :=
        ⟨between, last, used, Nat.le_trans (Nat.le_of_lt (lt_of_place_lt high inside)) after⟩
      refine ⟨own ▸ lowers'.apart x a held placed, fun free => ?_⟩
      cases free ▸ Instruction.isFree_of_op? lowers'.op
    | @release k' r' other here inside released =>
      -- What is released before `k` is not read there.
      have before : place t.code slots k' < place t.code slots k := by omega
      have less : k' < k := lt_of_place_lt before (Nat.le_of_lt inside)
      refine ⟨nofun, fun same => ?_⟩
      cases same
      exact Nat.not_lt_of_le (le_of_touches (List.mem_of_getElem? released) found read) less

end

/-- Every slot that is supplied at position `p` holds a buffer. -/
def Filled (code : List Instruction) (p : Nat) (m : Machine) : Prop :=
  ∀ q slot, Supplies code q p slot → ∃ buffer, m.slots[slot]? = some (some buffer)

theorem Supplies.of_succ (supplies : Supplies code q (p + 1) slot) (found : code[p]? = some i) :
    i.writes? = some slot ∨
      Supplies code q p slot ∧ i.writes? ≠ some slot ∧ i ≠ .free slot := by
  obtain ⟨before, writes, stays⟩ := supplies
  rcases Nat.lt_succ_iff_lt_or_eq.1 before with earlier | rfl
  · exact .inr ⟨⟨earlier, writes, fun r j low high => stays r j low (Nat.lt_succ_of_lt high)⟩,
      stays p i earlier (Nat.lt_succ_self p) found⟩
  · obtain ⟨j, found', writes⟩ := writes
    obtain rfl := Option.some.inj (found.symm.trans found')
    exact .inl writes

theorem Machine.step_slots (stepped : Machine.step plan threshold μ m i = .ok m') :
    m'.slots.length = m.slots.length ∧
      (∀ dst, i.writes? = some dst → ∃ buffer, m'.slots = m.slots.set dst (some buffer)) ∧
      ∀ slot, i.writes? ≠ some slot → i ≠ .free slot → m'.slots[slot]? = m.slots[slot]? := by
  cases written : i.writes? with
  | some dst =>
    rw [Machine.step_write written] at stepped
    obtain ⟨buffer, -, same⟩ := bind_eq_ok.1 stepped
    cases same
    refine ⟨by simp, ?_, fun slot other _ => ?_⟩
    · rintro _ ⟨⟩
      exact ⟨buffer, rfl⟩
    · have apart : dst ≠ slot := fun same => other (congrArg some same)
      exact List.getElem?_set_ne apart
  | none =>
    cases i with
    | store src p =>
      rw [Machine.step_store] at stepped
      obtain ⟨buffer, -, same⟩ := bind_eq_ok.1 stepped
      cases same
      exact ⟨rfl, nofun, fun _ _ _ => rfl⟩
    | free slot =>
      cases stepped
      refine ⟨by simp, nofun, fun other _ apart => ?_⟩
      exact List.getElem?_set_ne fun same : slot = other => apart (congrArg Instruction.free same)
    | _ => cases written

theorem Filled.next (filled : Filled code p m) (found : code[p]? = some i)
    (bound : ∀ dst, i.writes? = some dst → dst < m.slots.length)
    (stepped : Machine.step plan threshold μ m i = .ok m') : Filled code (p + 1) m' := by
  obtain ⟨-, writes, stays⟩ := Machine.step_slots stepped
  intro q slot supplies
  rcases supplies.of_succ found with written | ⟨before, unwritten, kept⟩
  · obtain ⟨buffer, slots⟩ := writes slot written
    exact ⟨buffer, by rw [slots, List.getElem?_set_self (bound slot written)]⟩
  · rw [stays slot unwritten kept]
    exact filled q slot before

/-- Where the slots it reads hold buffers, an instruction computes its result, unless it loads a
placeholder that cannot be read or comes to a size that cannot be counted. -/
theorem Machine.result_error {dst : Slot} {old : Buffer} {e : Error}
    (readable : ∀ slot ∈ i.reads, ∃ u, m.read slot = .ok u)
    (failed : Machine.result plan threshold μ m dst old i = .error e) :
    e = .overflow ∨ ∃ p, μ.context.load p = .error e := by
  cases i with
  | loadInput p _ =>
    cases loaded : μ.context.load p with
    | ok t => simp [Machine.result, loaded] at failed
    | error e' =>
      simp only [Machine.result, loaded] at failed
      cases failed
      exact .inr ⟨p, loaded⟩
  | unary _ src | reshape src =>
    obtain ⟨u, read⟩ := readable src (List.mem_singleton_self src)
    simp [Machine.result, read] at failed
  | binary _ lhs rhs | addRelu lhs rhs =>
    obtain ⟨u, left⟩ := readable lhs List.mem_cons_self
    obtain ⟨v, right⟩ := readable rhs (List.mem_cons_of_mem lhs (List.mem_singleton_self rhs))
    simp [Machine.result, left, right] at failed
  | transpose src =>
    obtain ⟨u, read⟩ := readable src (List.mem_singleton_self src)
    simp only [Machine.result, read, ok_bind] at failed
    exact .inl (Kernel.eq_overflow_of_transpose failed)
  | matmul lhs rhs =>
    obtain ⟨u, left⟩ := readable lhs List.mem_cons_self
    obtain ⟨v, right⟩ := readable rhs (List.mem_cons_of_mem lhs (List.mem_singleton_self rhs))
    simp only [Machine.result, left, right, ok_bind] at failed
    exact .inl (Kernel.eq_overflow_of_matmul failed)
  | loadConstant | store | free => simp [Machine.result] at failed

theorem load_ne_emptySlot (c : Context) (p : Placeholder) (slot : Slot) :
    c.load p ≠ .error (.emptySlot slot) := by
  intro failed
  cases Context.load_eq_error.1 failed

/-- An instruction whose operands are supplied finds no slot empty. -/
theorem Filled.step_ne_emptySlot (filled : Filled code p m)
    (supplied : ∀ slot ∈ i.reads, (∃ q, Supplies code q p slot) ∧ i.writes? ≠ some slot)
    (slot : Slot) : Machine.step plan threshold μ m i ≠ .error (.emptySlot slot) := by
  cases written : i.writes? with
  | some dst =>
    -- The destination is emptied first, but it is none of the slots that are read.
    have readable : ∀ other ∈ i.reads,
        ∃ u, Machine.read { m with slots := m.slots.set dst none } other = .ok u := by
      intro other member
      obtain ⟨⟨q, supplies⟩, apart⟩ := supplied other member
      obtain ⟨u, holds⟩ := filled q other supplies
      have different : dst ≠ other := fun same => apart (same ▸ written)
      exact ⟨u, by simp [Machine.read, List.getElem?_set_ne different, holds]⟩
    rw [Machine.step_write written]
    intro stepped
    generalize computed : Machine.result plan threshold μ _ dst _ i = result at stepped
    cases result with
    | ok v => cases stepped
    | error e =>
      cases stepped
      rcases Machine.result_error readable computed with past | ⟨p', failed⟩
      · cases past
      · exact load_ne_emptySlot _ _ _ failed
  | none =>
    cases i with
    | store src target =>
      obtain ⟨⟨q, supplies⟩, -⟩ := supplied src (List.mem_singleton_self src)
      obtain ⟨u, holds⟩ := filled q src supplies
      have read : m.read src = .ok u := by simp [Machine.read, holds]
      rw [Machine.step_store, read]
      rintro ⟨⟩
    | free other => rintro ⟨⟩
    | _ => cases written

/-- What a tape promises the machine: operands are supplied, the destination is no operand, and
every destination is a slot of the plan. -/
structure Fed (code : List Instruction) (slots : Nat) : Prop where
  supplied : ∀ (p : Nat) (i : Instruction), code[p]? = some i →
    ∀ slot ∈ i.reads, (∃ q, Supplies code q p slot) ∧ i.writes? ≠ some slot
  bounded : ∀ i ∈ code, ∀ dst, i.writes? = some dst → dst < slots

theorem Fed.run (fed : Fed code slots) (rest : List Instruction) {p : Nat}
    (left : code.drop p = rest) {m : Machine} (filled : Filled code p m)
    (length : m.slots.length = slots) (slot : Slot) :
    rest.foldlM (Machine.step plan threshold μ) m ≠ .error (.emptySlot slot) := by
  induction rest generalizing p m with
  | nil => exact nofun
  | cons i rest ih =>
    obtain ⟨found, left⟩ := drop_eq_cons left
    have bound := fed.bounded i (List.mem_of_getElem? found)
    rw [List.foldlM_cons]
    cases stepped : Machine.step plan threshold μ m i with
    | error e =>
      rintro ⟨⟩
      exact filled.step_ne_emptySlot (fed.supplied p i found) slot stepped
    | ok m' =>
      have next := filled.next found (length ▸ bound) stepped
      exact ih left next ((Machine.step_slots stepped).1.trans length)

theorem execute_ne_emptySlot (fed : Fed plan.instructions plan.slotTypes.length) (threshold : Nat)
    (μ : Memory) (slot : Slot) : execute plan threshold μ ≠ .error (.emptySlot slot) := by
  have empty : Filled plan.instructions 0 (.start plan) := fun q other supplies =>
    (Nat.not_lt_zero q supplies.before).elim
  exact fed.run plan.instructions rfl empty (List.length_map _) slot

theorem deliverElements_ne_emptySlot (target : Placeholder) (data : Buffer) (slot : Slot) :
    Run.deliverElements target data μ ≠ .error (.emptySlot slot) μ' := by
  rw [Run.deliverElements_eq]
  cases μ.context.matching? target with
  | some t =>
    by_cases fits : (μ.store.read t).ty.shape.Fits
    · by_cases count : (μ.store.read t).ty.shape.count = data.size <;>
        simp [Tensor.update_eq, Value.overwrite, Shape.expectCount_of_fits fits, count]
    · simp [Tensor.update_eq, Value.overwrite, Shape.expectCount_of_not_fits fits]
  | none =>
    by_cases rank : target.ty.shape.rank ≤ Shape.maxRank
    · by_cases fits : target.ty.shape.Fits
      · by_cases count : target.ty.shape.count = data.size <;>
          simp [Value.ofData, Shape.validate, Shape.expectCount_of_fits fits, rank, count]
      · simp [Value.ofData, Shape.validate, Shape.expectCount_of_not_fits fits, rank]
    · simp [Value.ofData, Shape.validate, rank]

theorem storeAll_ne_emptySlot (stores : List (Placeholder × Buffer)) (slot : Slot) :
    Interpreter.storeAll stores μ ≠ .error (.emptySlot slot) μ' := by
  induction stores generalizing μ with
  | nil => exact nofun
  | cons entry rest ih =>
    rw [Interpreter.storeAll_cons, state_bind]
    cases delivered : Run.deliverElements entry.1 entry.2 μ with
    | ok u ν => exact ih
    | error e ν =>
      rintro ⟨⟩
      exact deliverElements_ne_emptySlot entry.1 entry.2 slot delivered

theorem run_ne_emptySlot (fed : Fed plan.instructions plan.slotTypes.length) (threshold : Nat)
    (μ μ' : Memory) (slot : Slot) : run plan threshold μ ≠ .error (.emptySlot slot) μ' := by
  rw [run_eq]
  cases executed : execute plan threshold μ with
  | ok m => exact storeAll_ne_emptySlot m.stores slot
  | error e =>
    rintro ⟨⟩
    exact execute_ne_emptySlot fed threshold μ slot executed

end Tape

/-- The instruction `i` at position `p` does on slots what node `k` does on nodes: what it reads
as an operand is what the operand's instruction wrote last, still there and of the operand's type,
and what it writes is a slot of the node's type that it does not read. -/
structure Plan.Performs (plan : Plan) (f : Function) (slotOf : NodeId → Slot) (p k : Nat) (n : Node)
    (i : Instruction) : Prop where
  op : i.op? plan.constants = some (n.op.map slotOf)
  reads : ∀ (j : Nat) (slot : Slot), i.reads[j]? = some slot → ∃ x m q,
    n.op.operands[j]? = some x ∧ f.nodes[x]? = some m ∧ plan.slotTypes[slot]? = some m.ty ∧
      Tape.origin? plan.instructions q = some x ∧ Tape.Supplies plan.instructions q p slot
  writes : ∀ dst, i.writes? = some dst →
    dst = slotOf k ∧ plan.slotTypes[dst]? = some n.ty ∧ dst ∉ i.reads

section

open Lowering

variable {f : Function} {plan : Plan} {t : Lowering} {p k : Nat} {i : Instruction}

/-- What stands for a node performs it. -/
theorem Plan.performs_of_origin? (done : upTo f f.nodes.length = .ok t)
    (instructions : plan.instructions = Tape.withFrees t.code t.slotTypes.length)
    (slotTypes : plan.slotTypes = t.slotTypes) (constants : plan.constants = t.constants)
    (found : plan.instructions[p]? = some i)
    (origin : Tape.origin? plan.instructions p = some k) :
    ∃ n, f.nodes[k]? = some n ∧ plan.Performs f t.slot p k n i := by
  rw [instructions] at found origin
  have plain := Tape.plain_code done
  obtain ⟨rfl, inside⟩ := Tape.eq_place_of_origin? plain origin
  have there := List.getElem?_eq_getElem inside
  obtain rfl := Option.some.inj (found.symm.trans (Tape.withFrees_place there))
  obtain ⟨n, source, lowers⟩ := Tape.lowers_of_found done there
  have reads := Instruction.reads_of_op? lowers.op
  rw [Op.operands_map] at reads
  refine ⟨n, source, constants ▸ lowers.op, fun j slot read => ?_, fun dst written => ?_⟩
  · rw [reads, List.getElem?_map] at read
    obtain ⟨x, operand, rfl⟩ := Option.map_eq_some_iff.1 read
    have member := List.mem_of_getElem? operand
    obtain ⟨earlier, a, placed⟩ := lowers.placed x member
    obtain ⟨m, producer, typed⟩ := (lowered_of_upTo (Nat.le_refl _) done).sound.typed x a placed
    refine ⟨x, m, Tape.place t.code t.slotTypes.length x, operand, producer, ?_, ?_, ?_⟩
    · rw [slotTypes, slot_eq placed, typed]
    · rw [instructions]
      exact Tape.origin?_place plain (Nat.lt_trans earlier inside)
    · rw [instructions]
      exact Tape.supplies_operand done source there lowers member
  · cases unsaved : n.op.isSave with
    | true => simp [lowers.writes, unsaved] at written
    | false =>
      have own : t.slot k = dst := by simpa [lowers.writes, unsaved] using written
      refine ⟨own.symm, slotTypes ▸ own ▸ lowers.typed unsaved, fun read => ?_⟩
      rw [reads] at read
      obtain ⟨x, member, same⟩ := List.mem_map.1 read
      obtain ⟨earlier, a, placed⟩ := lowers.placed x member
      have held : f.Held k x := ⟨earlier, Function.le_lastUse? source member⟩
      exact lowers.apart x a held placed (by rw [written, ← same, slot_eq placed])

theorem Plan.fed {slotOf : NodeId → Slot}
    (performs : ∀ p i k, plan.instructions[p]? = some i →
      Tape.origin? plan.instructions p = some k →
        ∃ n, f.nodes[k]? = some n ∧ plan.Performs f slotOf p k n i) :
    Tape.Fed plan.instructions plan.slotTypes.length := by
  have each {p : Nat} {i : Instruction} {slot : Slot} (found : plan.instructions[p]? = some i)
      (touched : slot ∈ i.touches) : ∃ k n, plan.Performs f slotOf p k n i := by
    have origin : ∃ k, Tape.origin? plan.instructions p = some k := by
      simp [Tape.origin?, found, Instruction.isFree_of_touches touched]
    obtain ⟨k, stands⟩ := origin
    obtain ⟨n, -, performs⟩ := performs p i k found stands
    exact ⟨k, n, performs⟩
  constructor
  case supplied =>
    intro p i found slot read
    obtain ⟨k, n, performs⟩ := each found (List.mem_append_left _ read)
    obtain ⟨j, place⟩ := List.mem_iff_getElem?.1 read
    obtain ⟨x, m, q, -, -, -, -, supplies⟩ := performs.reads j slot place
    exact ⟨⟨q, supplies⟩, fun written => (performs.writes slot written).2.2 read⟩
  case bounded =>
    intro i member dst written
    obtain ⟨p, found⟩ := List.mem_iff_getElem?.1 member
    have touched : dst ∈ i.touches := List.mem_append_right _ (by simp [written])
    obtain ⟨k, n, performs⟩ := each found touched
    exact (List.getElem?_eq_some_iff.1 (performs.writes dst written).2.1).1

end

/-- The slots of any tape that a function is lowered to, releases included. Whatever stands for a
node performs it: its operands are still in the slots it reads. A slot is released once at most,
and neither read nor written from then on. So a run never meets an empty slot. -/
theorem slots_allocated_soundly {f : Function} {plan : Plan}
    (lowered : Plan.ofFunction f = .ok plan) :
    (∃ slotOf : NodeId → Slot, ∀ p i k, plan.instructions[p]? = some i →
      Tape.origin? plan.instructions p = some k →
        ∃ n, f.nodes[k]? = some n ∧ plan.Performs f slotOf p k n i) ∧
    (∀ (p q : Nat) (slot : Slot), plan.instructions[p]? = some (.free slot) →
      plan.instructions[q]? = some (.free slot) → p = q) ∧
    (∀ (p q : Nat) (i : Instruction) (slot : Slot), plan.instructions[p]? = some (.free slot) →
      p < q → plan.instructions[q]? = some i → slot ∉ i.reads ∧ i.writes? ≠ some slot) ∧
    ∀ threshold μ slot μ', Tape.run plan threshold μ ≠ .error (.emptySlot slot) μ' := by
  obtain ⟨t, done, -, instructions, slotTypes, constants, -⟩ := Plan.ofFunction_eq_ok lowered
  have performs p i k := Plan.performs_of_origin? (p := p) (i := i) (k := k) done instructions
    slotTypes constants
  have plain := Tape.plain_code done
  refine ⟨⟨t.slot, performs⟩, fun p q slot => ?_, fun p q i slot released later found => ?_,
    fun threshold μ slot μ' => Tape.run_ne_emptySlot (Plan.fed performs) threshold μ μ' slot⟩
  · rw [instructions]
    exact Tape.free_once plain
  · rw [instructions] at released found
    have untouched := Tape.untouched_after_free plain released later found
    refine ⟨fun read => untouched (List.mem_append_left _ read), fun written => ?_⟩
    exact untouched (List.mem_append_right _ (by simp [written]))

theorem Plan.read_off {α : Type} {f : Function} (view : Plan → α) (seen : α)
    (shown : (Plan.ofFunction f).toOption.map view = some seen) :
    ∃ plan, Plan.ofFunction f = .ok plan ∧ view plan = seen := by
  cases made : Plan.ofFunction f with
  | error e => simp [made, Except.toOption] at shown
  | ok plan => exact ⟨plan, rfl, by simpa [made, Except.toOption] using shown⟩

open Workspace in
/-- The doubled constant and the cut-off sit in the same slot, one after the other. The save finds
the cut-off there. -/
theorem slots_allocated_soundly_shift :
    ∃ plan, Plan.ofFunction Shift.function = .ok plan ∧
      plan.instructions[2]?.bind Instruction.writes? = some 2 ∧
      plan.instructions[7]?.map Instruction.reads = some [2] ∧
      ∃ q, Tape.origin? plan.instructions q = some 4 ∧ Tape.Supplies plan.instructions q 7 2 := by
  obtain ⟨plan, made, seen⟩ := Plan.read_off (f := Shift.function)
    (fun plan => (plan.instructions[2]?.bind Instruction.writes?,
      plan.instructions[7]?.map Instruction.reads, Tape.origin? plan.instructions 7))
    (some 2, some [2], some 5) (by decide)
  obtain ⟨written, reads, origin⟩ : plan.instructions[2]?.bind Instruction.writes? = some 2 ∧
      plan.instructions[7]?.map Instruction.reads = some [2] ∧
      Tape.origin? plan.instructions 7 = some 5 := by
    simpa using seen
  obtain ⟨i, found, read⟩ := Option.map_eq_some_iff.1 reads
  obtain ⟨slotOf, performs⟩ := (slots_allocated_soundly made).1
  obtain ⟨n, node, performs⟩ := performs 7 i 5 found origin
  obtain rfl : _ = n := Option.some.inj node
  obtain ⟨x, m, q, operand, -, -, there, supplies⟩ := performs.reads 0 2 (by simp [read])
  obtain rfl : 4 = x := Option.some.inj operand
  exact ⟨plan, made, written, reads, q, there, supplies⟩

end TensorGraph
