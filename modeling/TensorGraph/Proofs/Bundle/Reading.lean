import TensorGraph.Proofs.Bundle.Region
import TensorGraph.Proofs.Bundle.Writing
import TensorGraph.Proofs.Run.Failure

/-!
A bundle's weights, read back. What was written for a function's constants is found again by
someone who has only the file: names, kinds, shapes and places from its header, and from the
region the elements of each constant one by one.
-/

namespace TensorGraph

/-- The elements that an entry finds in a region. -/
def Weights.Entry.elements? (e : Weights.Entry) (region : Bytes) : Option (List Binary64) := do
  let kind ← ElementKind.ofName? e.elementKind
  (List.range (e.size / kind.size)).mapM fun i =>
    kind.decode? ((region.drop (e.offset + i * kind.size)).take kind.size)

/-- The entry is about a constant of the given name, and finds its elements in the region. -/
structure Weights.Entry.Describes (e : Weights.Entry) (alignment : Nat) (region : Bytes)
    (σ : Store) (c : String × Tensor) : Prop where
  name : e.name = c.1
  kind : e.elementKind = c.2.ty.kind.name
  dims : e.dims = c.2.ty.shape.dims
  size : e.size = c.2.ty.sizeInBytes
  aligned : alignment ∣ e.offset
  inside : e.offset + e.size ≤ region.length
  elements : e.elements? region = some (σ.read c.2).data.toList

namespace Bundle

variable {σ : Store} {plan : Plan} {network : String} {alignment : Nat}

theorem forall₂_zipWith {α β γ : Type} {R : α → γ → Prop} {g : α → β → γ} {xs : List α}
    {ys : List β} (length : ys.length = xs.length) (each : ∀ e ∈ xs.zip ys, R e.1 (g e.1 e.2)) :
    List.Forall₂ R xs (List.zipWith g xs ys) := by
  induction xs generalizing ys with
  | nil => exact .nil
  | cons x xs ih =>
    cases ys with
    | nil => cases length
    | cons y ys =>
      exact .cons (each (x, y) List.mem_cons_self)
        (ih (Nat.succ.inj length) fun e member => each e (List.mem_cons_of_mem _ member))

/-- The entry of a constant. -/
def entryAt (c : String × Tensor) (offset : Nat) : Weights.Entry where
  name := c.1
  elementKind := c.2.ty.kind.name
  dims := c.2.ty.shape.dims
  offset := offset
  size := c.2.ty.sizeInBytes

theorem weightsHeader_constants (b : Bundle) :
    b.weightsHeader.constants = List.zipWith entryAt b.plan.constants b.constants.offsets := rfl

theorem mem_weightsHeader {b : Bundle} {e : Weights.Entry} : e ∈ b.weightsHeader.constants ↔
    ∃ c ∈ b.plan.constants.zip b.constants.offsets, entryAt c.1 c.2 = e := by
  rw [weightsHeader_constants, ← List.map_uncurry_zip_eq_zipWith, List.mem_map]
  rfl

/-- What is put where in the region of constants. -/
def buffers (b : Bundle) (σ : Store) : List (Nat × Bytes) :=
  (b.plan.constants.zip b.constants.offsets).map fun e => (e.2, encodeValue (σ.read e.1.2))

theorem constantBytes_eq (b : Bundle) (σ : Store) :
    b.constantBytes σ = fill (List.replicate b.constants.size 0) (b.buffers σ) := by
  rw [fill, buffers, List.foldl_map]
  rfl

/-- An encoded value is read back element by element from where it lies. -/
theorem elements?_entryAt {c : String × Tensor} {offset : Nat} {region : Bytes} {v : Value}
    (wellFormed : v.WellFormed) (type : v.ty = c.2.ty) (float : v.ty.kind.isFloat)
    (lies : (region.drop offset).take v.ty.sizeInBytes = encodeValue v) :
    (entryAt c offset).elements? region = some v.data.toList := by
  have width : 0 < v.ty.kind.size := by cases v.ty.kind <;> decide
  have count : v.ty.sizeInBytes / v.ty.kind.size = v.data.toList.length := by
    rw [TensorType.sizeInBytes, Nat.mul_div_cancel _ width, Array.length_toList,
      wellFormed.size_eq, TensorType.count]
  simp only [Weights.Entry.elements?, entryAt, ← type, ElementKind.ofName?_name,
    Option.bind_eq_bind, Option.bind_some, count]
  refine mapM_range fun i x found => ?_
  have bound := (List.getElem?_eq_some_iff.1 found).1
  have room : i * v.ty.kind.size + v.ty.kind.size ≤ v.ty.sizeInBytes := by
    rw [← Nat.succ_mul]
    refine Nat.le_trans (Nat.mul_le_mul_right _ bound) ?_
    rw [← count]
    exact Nat.div_mul_le_self _ _
  have slice : (region.drop (offset + i * v.ty.kind.size)).take v.ty.kind.size =
      v.ty.kind.encode x := by
    rw [← slice_flatMap v.ty.kind.encode_length found, ← encodeValue, ← lies, List.drop_take,
      List.take_take, List.drop_drop, Nat.min_eq_left (by omega)]
  rw [slice]
  exact ElementKind.decode?_encode float
    (wellFormed.coerced x (Array.mem_toList_iff.1 (List.mem_of_getElem? found)))

theorem offsets_spec (positive : 0 < alignment) (plan : Plan) (network : String) :
    let b := ofPlan plan network alignment
    (∀ e ∈ plan.constants.zip b.constants.offsets,
        alignment ∣ e.2 ∧ e.2 + e.1.2.ty.sizeInBytes ≤ b.constants.size) ∧
      (plan.constants.zip b.constants.offsets).Pairwise fun a b =>
        a.2 + a.1.2.ty.sizeInBytes ≤ b.2 := by
  intro b
  obtain ⟨each, apart⟩ := Region.ofTypes_spec positive (plan.constants.map (·.2.ty))
  rw [List.zip_map_left] at each apart
  exact ⟨fun e member => each _ (List.mem_map_of_mem member), List.pairwise_map.1 apart⟩

theorem constantBytes_spec (positive : 0 < alignment)
    (held : ∀ c ∈ plan.constants, σ.Holds c.2 ∧ c.2.ty.kind.isFloat = true) (network : String) :
    let b := ofPlan plan network alignment
    let region := b.constantBytes σ
    region.length = b.constants.size ∧
      List.Forall₂ (fun c e => e.Describes alignment region σ c) plan.constants
        b.weightsHeader.constants ∧
      ∀ i < region.length,
        (∀ e ∈ b.weightsHeader.constants, ¬ (e.offset ≤ i ∧ i < e.offset + e.size)) →
          region[i]? = some 0 := by
  intro b region
  obtain ⟨each, apart⟩ := offsets_spec positive plan network
  have size : ∀ e ∈ plan.constants.zip b.constants.offsets,
      (encodeValue (σ.read e.1.2)).length = e.1.2.ty.sizeInBytes := by
    intro e member
    obtain ⟨wellFormed, type⟩ := (held e.1 (List.of_mem_zip member).1).1.read
    rw [length_encodeValue wellFormed, type]
  have zeros : (List.replicate b.constants.size (0 : UInt8)).length = b.constants.size :=
    List.length_replicate
  obtain ⟨length, rest, lies⟩ := @fill_spec (List.replicate b.constants.size 0) (b.buffers σ)
    (fun buffer member => by
      obtain ⟨e, present, rfl⟩ := List.mem_map.1 member
      rw [zeros, size e present]
      exact (each e present).2)
    (List.pairwise_map.2 (apart.imp_of_mem fun left _ order => by rwa [size _ left]))
  rw [← constantBytes_eq, zeros] at length
  refine ⟨length, ?_, fun i inside outside => ?_⟩
  · rw [weightsHeader_constants]
    refine forall₂_zipWith (by simp [b, ofPlan]) fun e member => ?_
    obtain ⟨good, float⟩ := held e.1 (List.of_mem_zip member).1
    obtain ⟨wellFormed, type⟩ := good.read
    obtain ⟨aligned, below⟩ := each e member
    have there := lies _ (List.mem_map_of_mem member)
    rw [← constantBytes_eq, size e member, ← type] at there
    exact ⟨rfl, rfl, rfl, rfl, aligned, by rw [length]; exact below,
      elements?_entryAt wellFormed type (type ▸ float) there⟩
  · change (b.constantBytes σ)[i]? = some 0
    rw [constantBytes_eq, rest i fun buffer member => ?_]
    · exact List.getElem?_replicate_of_lt (length ▸ inside)
    · obtain ⟨e, present, rfl⟩ := List.mem_map.1 member
      rw [size e present]
      exact outside (entryAt e.1 e.2) (mem_weightsHeader.2 ⟨e, present, rfl⟩)

theorem weightsHeader_fits (positive : 0 < alignment) (measured : Measurable plan alignment) :
    (ofPlan plan network alignment).weightsHeader.Fits := by
  obtain ⟨each, -⟩ := offsets_spec positive plan network
  obtain ⟨word, regions⟩ := measured
  obtain ⟨counted, size⟩ := regions _ List.mem_cons_self
  refine ⟨word, size, fun e member => ?_⟩
  obtain ⟨⟨c, offset⟩, present, rfl⟩ := mem_weightsHeader.1 member
  have constant : c ∈ plan.constants := (List.of_mem_zip present).1
  have inside : offset + c.2.ty.sizeInBytes ≤ (ofPlan plan network alignment).constants.size :=
    (each _ present).2
  have below := Nat.lt_of_le_of_lt inside size
  refine ⟨(counted _ (List.mem_map_of_mem constant)).lt_bound, ?_, ?_⟩
  · exact Nat.lt_of_le_of_lt (Nat.le_add_right ..) below
  · exact Nat.lt_of_le_of_lt (Nat.le_add_left ..) below

end Bundle

theorem Cpu.lower_eq_ok {f : Function} {mode : Mode} {plan : Plan}
    (lowered : Cpu.lower f mode = .ok plan) :
    Plan.ofFunction f = .ok plan ∧ ∀ n ∈ f.nodes, n.ty.kind.isFloat = true := by
  have compiled : Cpu.compile {} f mode = .ok (.tape plan 4096) :=
    bind_eq_ok.2 ⟨plan, lowered, rfl⟩
  obtain rfl := Cpu.infer_of_compile compiled
  obtain ⟨plan', same, made, floats⟩ := Cpu.compile_eq_ok compiled
  cases same
  exact ⟨made, floats⟩

theorem Function.Lawful.constants_held {declared : List Placeholder} {σ : Store} {f : Function}
    (lawful : f.Lawful declared σ) (floats : ∀ n ∈ f.nodes, n.ty.kind.isFloat = true) :
    ∀ c ∈ f.namedConstants, σ.Holds c.2 ∧ c.2.ty.kind.isFloat = true := by
  intro c member
  obtain ⟨n, present, named⟩ := List.mem_filterMap.1 member
  obtain ⟨t, constant, rfl⟩ := Option.map_eq_some_iff.1 named
  obtain ⟨i, found⟩ := List.mem_iff_getElem?.1 present
  have node := lawful.nodes i n found
  have typed := node.typed
  rw [Node.constant?_eq_some.1 constant] at typed
  exact ⟨node.held t constant, typed.constant_type ▸ floats n present⟩

theorem Cpu.saveBundle_eq_ok {config : Cpu.Config} {σ : Store} {f : Function} {mode : Mode}
    {directory : Path} {network : String} {fs gs : FileSystem} {written : Bundle.Written}
    (saved : Cpu.saveBundle config σ f mode directory network fs = .ok written gs) :
    ∃ plan, Cpu.lower f mode = .ok plan ∧
      Bundle.write σ plan directory network config.alignment fs = .ok written gs := by
  obtain ⟨_, hs, named, saved⟩ := state_bind_eq_ok.1 saved
  obtain ⟨plan, is, lowered, made⟩ := state_bind_eq_ok.1 saved
  rw [Bundle.export_check] at named lowered
  split at named
  next =>
    cases named
    split at lowered
    next plan' same =>
      cases lowered
      exact ⟨plan, same, made⟩
    next => cases lowered
  next => cases named

open Workspace

/-- The weights file of a bundle that was saved: what its header and its region are, and that they
can be read. -/
theorem saved_weights_file {w : Workspace} (reached : w.Reachable) {f : Function}
    (member : f ∈ w.module.functions) {config : Cpu.Config} {mode : Mode} {directory : Path}
    {network : String} {fs gs : FileSystem} {written : Bundle.Written}
    (saved : Cpu.saveBundle config w.store f mode directory network fs = .ok written gs) :
    ∃ plan, Cpu.lower f mode = .ok plan ∧ plan.constants = f.namedConstants ∧
      0 < config.alignment ∧
      let b := Bundle.ofPlan plan network config.alignment
      gs.fileAt? written.weights = some (b.weights w.store) ∧ b.weightsHeader.Fits ∧
        written.constantSize = b.constants.size ∧
        (b.constantBytes w.store).length = b.constants.size ∧
        List.Forall₂ (fun c e => e.Describes config.alignment (b.constantBytes w.store) w.store c)
          f.namedConstants b.weightsHeader.constants ∧
        ∀ i < (b.constantBytes w.store).length,
          (∀ e ∈ b.weightsHeader.constants, ¬ (e.offset ≤ i ∧ i < e.offset + e.size)) →
            (b.constantBytes w.store)[i]? = some 0 := by
  obtain ⟨-, lawful⟩ := reached.lawful.functions f member
  obtain ⟨plan, lowered, made⟩ := Cpu.saveBundle_eq_ok saved
  obtain ⟨planned, floats⟩ := Cpu.lower_eq_ok lowered
  have constants := Plan.constants_eq planned
  obtain ⟨positive, measured, rfl, -, stored, -⟩ := Bundle.write_ok made
  have held := lawful.constants_held floats
  rw [← constants] at held ⊢
  obtain ⟨length, entries, zeros⟩ := Bundle.constantBytes_spec positive held network
  exact ⟨plan, lowered, rfl, positive, stored, Bundle.weightsHeader_fits positive measured, rfl,
    length, entries, zeros⟩

/-- After a bundle was saved, its weights file alone gives back what was exported. The header is
that of the export and has an entry for each constant of the function, in order, with its name,
element kind, dimensions, offset and size; the region is as long as the header says, each entry
finds in it the elements that the constant holds, and every byte that belongs to no entry is zero.
The file's length is a 64-bit word. -/
theorem saved_weights_read_back {w : Workspace} (reached : w.Reachable) {f : Function}
    (member : f ∈ w.module.functions) {config : Cpu.Config} {mode : Mode} {directory : Path}
    {network : String} {fs gs : FileSystem} {written : Bundle.Written}
    (saved : Cpu.saveBundle config w.store f mode directory network fs = .ok written gs)
    (short : ∀ bytes, gs.fileAt? written.weights = some bytes → bytes.length < UInt64.size) :
    ∃ plan header region, Cpu.lower f mode = .ok plan ∧
      Weights.read gs written.weights = .ok (header, region) ∧
      header = (Bundle.ofPlan plan network config.alignment).weightsHeader ∧
      header.network = network ∧ header.alignment = config.alignment ∧
      header.constantSize = written.constantSize ∧ region.length = written.constantSize ∧
      List.Forall₂ (fun c e => e.Describes config.alignment region w.store c) f.namedConstants
        header.constants ∧
      ∀ i < region.length,
        (∀ e ∈ header.constants, ¬ (e.offset ≤ i ∧ i < e.offset + e.size)) →
          region[i]? = some 0 := by
  obtain ⟨plan, lowered, -, -, stored, fits, size, length, entries, zeros⟩ :=
    saved_weights_file reached member saved
  refine ⟨plan, _, _, lowered, ?_, rfl, rfl, rfl, size.symm, length.trans size.symm, entries, zeros⟩
  rw [Weights.read, stored]
  exact Weights.decode_encode fits (short _ stored) _

theorem saved_weights_read_back_shift :
    ∃ written gs header region,
      Cpu.saveBundle {} Shift.workspace.store Shift.function .infer ⟨["out"]⟩ "net" .empty =
        .ok written gs ∧
      Weights.read gs written.weights = .ok (header, region) ∧
      region.length = written.constantSize ∧
      List.Forall₂ (fun c e => e.Describes 64 region Shift.workspace.store c)
        Shift.function.namedConstants header.constants := by
  have run : (match Cpu.saveBundle {} Shift.workspace.store Shift.function .infer ⟨["out"]⟩ "net"
      .empty with
    | .ok written gs => (gs.fileAt? written.weights).all (·.length < UInt64.size)
    | .error _ _ => false) = true := by decide +kernel
  split at run
  next written gs saved =>
    obtain ⟨-, header, region, -, read, -, -, -, -, length, entries, -⟩ :=
      saved_weights_read_back Shift.reachable Shift.member saved
        fun bytes found => by simpa [found] using run
    exact ⟨written, gs, header, region, saved, read, length, entries⟩
  next => cases run

end TensorGraph
