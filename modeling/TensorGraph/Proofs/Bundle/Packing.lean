import TensorGraph.Proofs.Bundle.Reading
import TensorGraph.Proofs.Tape.Pressure

/-!
Regions without waste. A region's buffers stand where the alignment lets them, each after the one
before, and no other way of laying them out in that order puts a buffer lower or ends lower. So
nothing that is written to a region's buffers leaves the region.
-/

namespace TensorGraph

section

variable {alignment offset bound : Nat}

theorem alignUp_le (aligned : alignment ∣ bound) (below : offset ≤ bound) :
    alignUp alignment offset ≤ bound := by
  obtain ⟨k, rfl⟩ := aligned
  rcases Nat.eq_zero_or_pos alignment with rfl | positive
  · simp [alignUp]
  · have most : (offset + (alignment - 1)) / alignment ≤ k := by
      refine Nat.lt_succ_iff.1 ((Nat.div_lt_iff_lt_mul positive).2 ?_)
      rw [Nat.succ_mul, Nat.mul_comm k]
      omega
    rw [alignUp, Nat.mul_comm alignment]
    exact Nat.mul_le_mul_right _ most

end

namespace Region

/-- A region with buffers of the given types, in order, aligned and without overlap. -/
structure Fits (alignment : Nat) (types : List TensorType) (r : Region) : Prop where
  length : r.offsets.length = types.length
  aligned : ∀ e ∈ types.zip r.offsets, alignment ∣ e.2
  apart : (types.zip r.offsets).Pairwise fun a b => a.2 + a.1.sizeInBytes ≤ b.2
  inside : ∀ e ∈ types.zip r.offsets, e.2 + e.1.sizeInBytes ≤ r.size
  whole : alignment ∣ r.size

/-- A region that fits its buffers and in which nothing could be lower. -/
structure Packed (alignment : Nat) (types : List TensorType) (r : Region) : Prop
    extends r.Fits alignment types where
  least : ∀ other : Region, other.Fits alignment types →
    List.Forall₂ (· ≤ ·) r.offsets other.offsets ∧ r.size ≤ other.size

variable {alignment : Nat}

/-- No offsets that start at `top` or higher are lower than those of `place`. -/
theorem place_least {top size : Nat} {types : List TensorType} {offsets : List Nat}
    (length : offsets.length = types.length)
    (aligned : ∀ e ∈ types.zip offsets, alignment ∣ e.2)
    (above : ∀ e ∈ types.zip offsets, top ≤ e.2)
    (apart : (types.zip offsets).Pairwise fun a b => a.2 + a.1.sizeInBytes ≤ b.2)
    (start : top ≤ size) (inside : ∀ e ∈ types.zip offsets, e.2 + e.1.sizeInBytes ≤ size) :
    List.Forall₂ (· ≤ ·) (place alignment top types).1 offsets ∧
      (place alignment top types).2 ≤ size := by
  induction types generalizing top offsets with
  | nil =>
    obtain rfl := List.length_eq_zero_iff.1 length
    exact ⟨.nil, start⟩
  | cons ty rest ih =>
    cases offsets with
    | nil => cases length
    | cons first offsets =>
      obtain ⟨multiple, aligned⟩ := List.forall_mem_cons.1 aligned
      obtain ⟨later, apart⟩ := List.pairwise_cons.1 apart
      obtain ⟨ends, inside⟩ := List.forall_mem_cons.1 inside
      have low : alignUp alignment top ≤ first := alignUp_le multiple (above _ List.mem_cons_self)
      have next := Nat.add_le_add_right low ty.sizeInBytes
      obtain ⟨each, last⟩ := ih (Nat.succ.inj length) aligned
        (fun e member => Nat.le_trans next (later e member)) apart (Nat.le_trans next ends) inside
      exact ⟨.cons low each, last⟩

theorem packed_ofTypes (positive : 0 < alignment) (types : List TensorType) :
    (ofTypes alignment types).Packed alignment types := by
  obtain ⟨each, apart⟩ := ofTypes_spec positive types
  refine ⟨⟨ofTypes_length _ _, fun e member => (each e member).1, apart,
    fun e member => (each e member).2, alignUp_dvd _ _⟩, fun other fits => ?_⟩
  obtain ⟨offsets, last⟩ := place_least fits.length fits.aligned (fun _ _ => Nat.zero_le _)
    fits.apart (Nat.zero_le _) fits.inside
  exact ⟨offsets, alignUp_le fits.whole last⟩

/-- A region has no bytes exactly if none of its buffers has. -/
theorem size_eq_zero_iff {types : List TensorType} (positive : 0 < alignment) :
    (ofTypes alignment types).size = 0 ↔ ∀ ty ∈ types, ty.sizeInBytes = 0 := by
  have packed := packed_ofTypes positive types
  constructor
  · intro none ty member
    have paired : (types.zip (ofTypes alignment types).offsets).map Prod.fst = types :=
      List.map_fst_zip (by rw [ofTypes_length])
    rw [← paired] at member
    obtain ⟨e, present, rfl⟩ := List.mem_map.1 member
    have inside := packed.inside e present
    omega
  · intro empty
    have low : ∀ e ∈ types.zip (types.map fun _ => 0), e.2 = 0 ∧ e.1.sizeInBytes = 0 := by
      intro e member
      obtain ⟨left, right⟩ := List.of_mem_zip member
      obtain ⟨_, -, zero⟩ := List.mem_map.1 right
      exact ⟨zero.symm, empty _ left⟩
    have fits : Fits alignment types ⟨types.map fun _ => 0, 0⟩ :=
      { length := List.length_map _
        aligned := fun e member => by simp [low e member]
        apart := List.pairwise_of_forall_mem_list fun a left b right => by simp [low a left]
        inside := fun e member => by simp [low e member]
        whole := Nat.dvd_zero _ }
    exact Nat.le_zero.1 (packed.least _ fits).2

end Region

theorem TensorType.sizeInBytes_eq_zero_iff {ty : TensorType} :
    ty.sizeInBytes = 0 ↔ ty.count = 0 := by
  have width : ty.kind.size ≠ 0 := by cases ty.kind <;> decide
  rw [sizeInBytes, count, Nat.mul_eq_zero, or_iff_left width]

theorem Bundle.constantSize_eq_zero_iff (plan : Plan) (network : String) {alignment : Nat}
    (positive : 0 < alignment) :
    (ofPlan plan network alignment).constants.size = 0 ↔ ∀ c ∈ plan.constants, c.2.ty.count = 0 := by
  rw [ofPlan, Region.size_eq_zero_iff positive, List.forall_mem_map]
  simp only [TensorType.sizeInBytes_eq_zero_iff]

namespace Placeholder

/-- The first place where a placeholder is used. -/
def firstUse (used : List Placeholder) (p : Placeholder) : Nat := used.findIdx (·.id = p.id)

/-- Every placeholder that is used stands in `ps` once, in the order of first uses. -/
structure ByFirstUse (used ps : List Placeholder) : Prop where
  found : ∀ p ∈ ps, used[firstUse used p]? = some p
  all : ∀ p ∈ used, ∃ q ∈ ps, q.id = p.id
  order : ps.Pairwise fun p q => firstUse used p < firstUse used q

variable {used : List Placeholder} {p r : Placeholder}

theorem firstUse_lt (member : p ∈ used) : firstUse used p < used.length :=
  List.findIdx_lt_length.2 ⟨p, member, by simp⟩

theorem firstUse_concat (member : p ∈ used) (r : Placeholder) :
    firstUse (used ++ [r]) p = firstUse used p := by
  rw [firstUse, List.findIdx_append]
  exact if_pos (firstUse_lt member)

theorem firstUse_new (new : ∀ q ∈ used, q.id ≠ r.id) :
    firstUse (used ++ [r]) r = used.length := by
  rw [firstUse, List.findIdx_append, List.findIdx_eq_length.2 fun q member => by
    simpa using new q member]
  simp

/-- One more use leaves the first ones, and is itself one unless its placeholder is used before. -/
theorem ByFirstUse.concat (first : ByFirstUse used (distinct used)) (r : Placeholder) :
    ByFirstUse (used ++ [r]) (distinct (used ++ [r])) := by
  have stays {p : Placeholder} (member : p ∈ distinct used) :
      firstUse (used ++ [r]) p = firstUse used p := firstUse_concat (mem_of_mem_distinct member) r
  have found : ∀ p ∈ distinct used, (used ++ [r])[firstUse (used ++ [r]) p]? = some p := by
    intro p member
    rw [stays member, List.getElem?_append_left (firstUse_lt (mem_of_mem_distinct member))]
    exact first.found p member
  have order : (distinct used).Pairwise fun p q =>
      firstUse (used ++ [r]) p < firstUse (used ++ [r]) q :=
    first.order.imp_of_mem fun left right less => by rwa [stays left, stays right]
  have all : ∀ p ∈ used ++ [r], ∃ q ∈ distinct (used ++ [r]), q.id = p.id :=
    fun p => exists_mem_distinct
  rw [distinct_concat] at all ⊢
  split at all
  next known =>
    rw [if_pos known]
    exact ⟨found, all, order⟩
  next unknown =>
    rw [if_neg unknown]
    have last : firstUse (used ++ [r]) r = used.length := firstUse_new fun q member same => by
      obtain ⟨p, present, named⟩ := exists_mem_distinct member
      exact unknown (List.any_eq_true.2 ⟨p, present, by simpa using named.trans same⟩)
    refine ⟨List.forall_mem_append.2 ⟨found, ?_⟩, all, List.pairwise_append.2
      ⟨order, List.pairwise_singleton _ _, fun p member q new => ?_⟩⟩
    · rw [List.forall_mem_singleton, last, List.getElem?_concat_length]
    · rw [List.mem_singleton.1 new, last, stays member]
      exact firstUse_lt (mem_of_mem_distinct member)

theorem byFirstUse_distinct (used : List Placeholder) : ByFirstUse used (distinct used) := by
  induction used using List.reverseRecOn with
  | nil => exact ⟨fun p member => (nomatch member), fun p member => (nomatch member), .nil⟩
  | append_singleton used r ih => exact ih.concat r

end Placeholder

def Instruction.constant? : Instruction → Option Nat
  | loadConstant index _ => some index
  | _ => none

section

open Lowering

variable {f : Function} {s t : Lowering} {n : Node} {plan : Plan}

theorem Lowering.Advances.loads (advances : Advances f s n t)
    (before : s.code.filterMap (·.constant?) = List.range s.constants.length) :
    t.code.filterMap (·.constant?) = List.range t.constants.length := by
  cases advances with
  | save op source slotOf code slotTypes constants =>
    rw [code, constants, List.filterMap_append, before]
    exact List.append_nil _
  | value unsaved emits slotOf code slotTypes constants =>
    rw [code, constants, List.filterMap_append, before, List.length_append]
    cases emits with
    | constant op => exact List.range_succ.symm
    | _ => exact List.append_nil _

theorem Tape.unfreed_code (done : upTo f f.nodes.length = .ok t) :
    (Tape.withFrees t.code t.slotTypes.length).filter (!·.isFree) = t.code :=
  Tape.filter_withFrees (Tape.plain_code done)

/-- A tape loads each of its constants once, in the order they are listed in. -/
theorem Plan.loads (lowered : Plan.ofFunction f = .ok plan) :
    plan.instructions.filterMap (·.constant?) = List.range plan.constants.length := by
  obtain ⟨t, done, -, instructions, -, constants, -⟩ := Plan.ofFunction_eq_ok lowered
  have loaded := upTo_induction
    (P := fun _ s => s.code.filterMap (·.constant?) = List.range s.constants.length) rfl
    (fun k s n t settled found stepped before => (settled.step found stepped).2.loads before)
    (Nat.le_refl _) done
  have unfreed := Tape.unfreed_code done
  rw [constants, ← loaded, instructions, ← unfreed, List.filterMap_filter, unfreed]
  refine List.filterMap_congr fun i _ => ?_
  cases i <;> rfl

theorem Tape.mem_code {i : Instruction} (done : upTo f f.nodes.length = .ok t)
    (member : i ∈ Tape.withFrees t.code t.slotTypes.length) (unfree : i.isFree = false) :
    i ∈ t.code := by
  rw [← Tape.unfreed_code done]
  exact List.mem_filter.2 ⟨member, by simp [unfree]⟩

theorem Plan.touches (lowered : Plan.ofFunction f = .ok plan) :
    ∀ i ∈ plan.instructions, ∀ slot ∈ i.touches, slot < plan.slotTypes.length := by
  obtain ⟨t, done, -, instructions, slotTypes, -⟩ := Plan.ofFunction_eq_ok lowered
  intro i member slot touched
  have unfree : i.isFree = false := by
    cases i with
    | free _ => cases touched
    | _ => rfl
  rw [slotTypes]
  exact (Lowering.touched_iff done slot).2
    ⟨i, Tape.mem_code done (instructions ▸ member) unfree, touched⟩

theorem Instruction.placeholder?_of_op? {i : Instruction} {constants : List (String × Tensor)}
    {op : Op Slot} (carries : i.op? constants = some op) : i.placeholder? = op.placeholder? := by
  cases i with
  | loadConstant index dst =>
    obtain ⟨entry, -, rfl⟩ := Option.map_eq_some_iff.1 carries
    rfl
  | free slot => cases carries
  | _ =>
    cases carries
    rfl

theorem Plan.exists_node (lowered : Plan.ofFunction f = .ok plan) {p : Placeholder}
    (member : p ∈ plan.placeholders) : ∃ n ∈ f.nodes, n.op.placeholder? = some p := by
  obtain ⟨t, done, -, instructions, -⟩ := Plan.ofFunction_eq_ok lowered
  obtain ⟨i, present, named⟩ := List.mem_filterMap.1 (Placeholder.mem_of_mem_distinct member)
  have unfree : i.isFree = false := by
    cases i with
    | free _ => cases named
    | _ => rfl
  obtain ⟨k, found⟩ := List.mem_iff_getElem?.1
    (Tape.mem_code done (instructions ▸ present) unfree)
  obtain ⟨n, source, lowers⟩ := Tape.lowers_of_found done found
  refine ⟨n, List.mem_of_getElem? source, ?_⟩
  rw [← named, Instruction.placeholder?_of_op? lowers.op, Op.placeholder?_map]

end

namespace Bundle

/-- `put`, unless the bytes leave the region. -/
def put? (region : Bytes) (offset : Nat) (bytes : Bytes) : Option Bytes :=
  if offset + bytes.length ≤ region.length then some (put region offset bytes) else none

/-- The region of constants, if every constant finds its place inside of it. -/
def constantBytes? (b : Bundle) (σ : Store) : Option Bytes :=
  (b.buffers σ).foldlM (fun region buffer => put? region buffer.1 buffer.2)
    (List.replicate b.constants.size 0)

variable {σ : Store} {plan : Plan} {alignment : Nat}

theorem foldlM_put? {region : Bytes} {buffers : List (Nat × Bytes)}
    (inside : ∀ b ∈ buffers, b.1 + b.2.length ≤ region.length) :
    buffers.foldlM (fun region buffer => put? region buffer.1 buffer.2) region =
      some (fill region buffers) := by
  induction buffers generalizing region with
  | nil => rfl
  | cons first rest ih =>
    obtain ⟨room, inside⟩ := List.forall_mem_cons.1 inside
    have next : put? region first.1 first.2 = some (put region first.1 first.2) := if_pos room
    rw [List.foldlM_cons, next]
    exact ih (by rwa [length_put room])

theorem constantBytes?_ofPlan (positive : 0 < alignment)
    (held : ∀ c ∈ plan.constants, σ.Holds c.2) (network : String) :
    (ofPlan plan network alignment).constantBytes? σ =
      some ((ofPlan plan network alignment).constantBytes σ) := by
  obtain ⟨each, -⟩ := offsets_spec positive plan network
  rw [constantBytes?, foldlM_put?, constantBytes_eq]
  intro buffer member
  obtain ⟨e, present, rfl⟩ := List.mem_map.1 member
  obtain ⟨wellFormed, type⟩ := (held e.1 (List.of_mem_zip present).1).read
  rw [length_encodeValue wellFormed, type, List.length_replicate]
  exact (each e present).2

end Bundle

theorem Function.Lawful.holds_constants {declared : List Placeholder} {σ : Store} {f : Function}
    (lawful : f.Lawful declared σ) : ∀ c ∈ f.namedConstants, σ.Holds c.2 := by
  intro c member
  obtain ⟨n, present, named⟩ := List.mem_filterMap.1 member
  obtain ⟨t, constant, rfl⟩ := Option.map_eq_some_iff.1 named
  exact lawful.constant_held (List.mem_filterMap.2 ⟨n, present, constant⟩)

/-- A layout in words exists exactly if some region with the buffers has a word for its size. -/
theorem Region.measurable_iff {alignment : Nat} {types : List TensorType}
    (positive : 0 < alignment) :
    Measurable alignment types ↔ (∀ ty ∈ types, ty.shape.Fits) ∧
      ∃ r : Region, r.Fits alignment types ∧ r.size < Word.bound := by
  have packed := packed_ofTypes positive types
  refine and_congr_right fun _ => ⟨fun below => ⟨_, packed.toFits, below⟩, ?_⟩
  rintro ⟨r, fits, below⟩
  exact Nat.lt_of_le_of_lt (packed.least r fits).2 below

open Workspace

/-- For every positive alignment, a bundle is laid out exactly if its buffers can be counted and
each of its three regions can have a size in words; otherwise the sizes overflow. The regions then
hold their buffers one after another, aligned and without overlap, at the lowest offsets and in the
least space there is for them in that order. Placeholders come by the first instruction that uses
each of them. On a tape that a function was lowered to, constants come as they are loaded, every
slot touched has its place, and the constants are written into their region without leaving it. -/
theorem regions_packed (plan : Plan) (network : String) {alignment : Nat}
    (positive : 0 < alignment) (word : alignment < Word.bound) :
    ((∃ b, Bundle.layOut plan network alignment = .ok b) ↔
      ∀ types ∈ Bundle.bufferTypes plan, (∀ ty ∈ types, ty.shape.Fits) ∧
        ∃ r : Region, r.Fits alignment types ∧ r.size < Word.bound) ∧
    (∀ e, Bundle.layOut plan network alignment = .error e → e = .overflow) ∧
    ∀ b, Bundle.layOut plan network alignment = .ok b →
      b.constants.Packed alignment (plan.constants.map (·.2.ty)) ∧
      b.placeholders.Packed alignment (plan.placeholders.map (·.ty)) ∧
      b.activations.Packed alignment plan.slotTypes ∧
      Placeholder.ByFirstUse (plan.instructions.filterMap (·.placeholder?)) plan.placeholders ∧
      ∀ f, Plan.ofFunction f = .ok plan →
        plan.instructions.filterMap (·.constant?) = List.range plan.constants.length ∧
        (∀ i ∈ plan.instructions, ∀ slot ∈ i.touches, slot < plan.slotTypes.length) ∧
        ∀ w : Workspace, w.Reachable → f ∈ w.module.functions →
          b.constantBytes? w.store = some (b.constantBytes w.store) := by
  refine ⟨?_, fun e => Bundle.eq_overflow_of_layOut, fun b laid => ?_⟩
  · simp only [Bundle.layOut_eq_ok positive, Bundle.Measurable, exists_and_left, exists_eq,
      and_true, and_iff_right word, Region.measurable_iff positive]
  · obtain ⟨-, rfl⟩ := (Bundle.layOut_eq_ok positive).1 laid
    refine ⟨Region.packed_ofTypes positive _, Region.packed_ofTypes positive _,
      Region.packed_ofTypes positive _, Placeholder.byFirstUse_distinct _, fun f lowered =>
      ⟨Plan.loads lowered, Plan.touches lowered, fun w reached member => ?_⟩⟩
    obtain ⟨-, lawful⟩ := reached.lawful.functions f member
    refine Bundle.constantBytes?_ofPlan positive ?_ network
    rw [Plan.constants_eq lowered]
    exact lawful.holds_constants

/-- Three slots of eight bytes each, at multiples of an alignment that is no power of two. -/
theorem regions_packed_shift :
    ∃ plan b, Plan.ofFunction Shift.function = .ok plan ∧
      Bundle.layOut plan "net" 24 = .ok b ∧
      b.activations = ⟨[0, 24, 48], 72⟩ ∧ b.activations.Packed 24 plan.slotTypes ∧
      plan.instructions.filterMap (·.constant?) = [0] ∧
      b.constantBytes? Shift.workspace.store = some (b.constantBytes Shift.workspace.store) := by
  obtain ⟨plan, made, seen⟩ := Plan.read_off (f := Shift.function)
    (fun plan => ((Bundle.layOut plan "net" 24).toOption.map (·.activations), plan.constants.length))
    (some ⟨[0, 24, 48], 72⟩, 1) (by decide)
  obtain ⟨laid, constants⟩ := Prod.mk.inj seen
  obtain ⟨b, laid, activations⟩ := Option.map_eq_some_iff.1 laid
  obtain laid := toOption_eq_some.1 laid
  obtain ⟨-, -, packed⟩ := regions_packed plan "net" (by decide : 0 < 24) (by decide)
  obtain ⟨-, -, slots, -, tape⟩ := packed b laid
  obtain ⟨loads, -, written⟩ := tape _ made
  rw [constants] at loads
  exact ⟨plan, b, made, laid, activations, slots, loads, written _ Shift.reachable Shift.member⟩

/-- Two buffers of eight bytes each, at multiples of `2 ^ 63`: the region would end past the last
word. -/
theorem second_buffer_overflows :
    Shift.workspace.Reachable ∧ Shift.function ∈ Shift.workspace.module.functions ∧
    ∃ plan, Plan.ofFunction Shift.function = .ok plan ∧
      plan.placeholders.map (·.ty.sizeInBytes) = [8, 8] ∧
      (∀ types ∈ Bundle.bufferTypes plan, ∀ ty ∈ types, ty.shape.Fits) ∧
      Bundle.layOut plan "net" (2 ^ 63) = .error .overflow := by
  obtain ⟨plan, made, seen⟩ := Plan.read_off (f := Shift.function)
    (fun plan => (plan.placeholders.map (·.ty.sizeInBytes),
      decide (∀ types ∈ Bundle.bufferTypes plan, ∀ ty ∈ types, ty.shape.Fits),
      (Bundle.layOut plan "net" (2 ^ 63)).isOk)) ([8, 8], true, false) (by decide)
  simp only [Prod.mk.injEq, decide_eq_true_eq] at seen
  obtain ⟨sizes, counted, laid⟩ := seen
  refine ⟨Shift.reachable, Shift.member, plan, made, sizes, counted, ?_⟩
  cases ended : Bundle.layOut plan "net" (2 ^ 63) with
  | ok b =>
    rw [ended] at laid
    cases laid
  | error e => rw [Bundle.eq_overflow_of_layOut ended]

end TensorGraph
