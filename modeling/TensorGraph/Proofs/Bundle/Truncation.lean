import TensorGraph.Proofs.Bundle.Packing

/-!
Weights files cut short. The eight bytes of the length and the text of the header are checked against
the end of the file, so a cut before the region of constants is noticed. The region is whatever
follows the header: a file cut inside of it is read with all its entries and without their elements.
-/

namespace TensorGraph

namespace Weights

variable {header : Header} {region : Bytes} {count : Nat}

/-- Where the region of constants starts in a file with this header. -/
def regionStart (header : Header) : Nat := 8 + header.toJson.render.length

/-- A file cut in its region is the file of the cut region. -/
theorem take_encode (region : Bytes) (past : regionStart header ≤ count) :
    (encode header region).take count = encode header (region.take (count - regionStart header)) := by
  have front : (ElementKind.littleEndian 8 header.toJson.render.length ++
      header.toJson.render).length = regionStart header := by
    simp [regionStart]
  rw [encode, encode, List.take_append, front, List.take_of_length_le (by omega)]

theorem decode_take (fits : header.Fits) (short : (encode header region).length < UInt64.size)
    (inside : count ≤ (encode header region).length) (path : String) :
    decode path ((encode header region).take count) =
      if count < 8 then .error (.truncatedWeights path)
      else if count < regionStart header then .error (.headerPastEnd path)
      else .ok (header, region.take (count - regionStart header)) := by
  have length : ((encode header region).take count).length = count :=
    List.length_take_of_le inside
  split
  next few => rw [decode, if_pos (by rwa [length])]
  next enough =>
    split
    next before =>
      have announced : number (((encode header region).take count).take 8) =
          header.toJson.render.length := by
        rw [List.take_take, Nat.min_eq_left (by omega), number_encode short]
      have left : (((encode header region).take count).drop 8).length <
          header.toJson.render.length := by
        rw [List.length_drop, length]
        rw [regionStart] at before
        omega
      rw [decode, if_neg (by omega)]
      simp only [announced, left, if_true]
    next past =>
      have whole := take_encode region (Nat.le_of_not_lt past)
      rw [whole]
      apply decode_encode fits
      rw [← whole, length]
      omega

variable {fs hs : FileSystem} {path : Path}

theorem read_take (fits : header.Fits) (short : (encode header region).length < UInt64.size)
    (before : count < (encode header region).length)
    (found : hs.fileAt? path = some ((encode header region).take count)) :
    read hs path =
      if count < 8 then .error (.truncatedWeights path.render)
      else if count < regionStart header then .error (.headerPastEnd path.render)
      else .ok (header, region.take (count - regionStart header)) := by
  rw [read, found]
  exact decode_take fits short (Nat.le_of_lt before) _

/-- Only if there is no region all cuts are noticed: a whole region can be missing. -/
theorem all_cuts_rejected_iff (fits : header.Fits)
    (short : (encode header region).length < UInt64.size)
    (stored : fs.fileAt? path = some (encode header region)) :
    (∀ k < (encode header region).length, ∀ (hs : FileSystem) (path : Path),
      hs.fileAt? path = some ((encode header region).take k) → ∃ e, read hs path = .error e) ↔
      region.length = 0 := by
  have total : (encode header region).length = regionStart header + region.length :=
    length_encode header region
  have eight : 8 ≤ regionStart header := Nat.le_add_right _ _
  constructor
  · intro rejected
    by_contra some
    obtain ⟨hs, -, found⟩ :=
      FileSystem.exists_rewritten stored ((encode header region).take (regionStart header))
    obtain ⟨e, refused⟩ := rejected _ (by omega) hs path found
    rw [read_take fits short (by omega) found, if_neg (by omega), if_neg (by omega)] at refused
    cases refused
  · intro none k before hs path found
    rw [read_take fits short before found]
    split
    next => exact ⟨_, rfl⟩
    next => exact ⟨_, if_pos (by omega)⟩

end Weights

open Workspace

/-- After a bundle was saved, a copy of its weights file that is cut after `k` bytes is rejected
exactly if the cut is before the region of constants: as truncated in the length of the header, as a
header past the end in the header. A cut in the region is read like the whole file, with a region
that is shorter than its header says. So all cuts are rejected exactly if no constant has elements.
The file's length is a 64-bit word. -/
theorem cut_weights_rejected_iff {w : Workspace} (reached : w.Reachable) {f : Function}
    (member : f ∈ w.module.functions) {config : Cpu.Config} {mode : Mode} {directory : Path}
    {network : String} {fs gs : FileSystem} {written : Bundle.Written}
    (saved : Cpu.saveBundle config w.store f mode directory network fs = .ok written gs)
    (short : ∀ bytes, gs.fileAt? written.weights = some bytes → bytes.length < UInt64.size) :
    ∃ bytes header region, gs.fileAt? written.weights = some bytes ∧
      Weights.read gs written.weights = .ok (header, region) ∧
      header.constantSize = written.constantSize ∧ region.length = written.constantSize ∧
      (∀ k < bytes.length, ∀ (hs : FileSystem) (path : Path),
        hs.fileAt? path = some (bytes.take k) →
          (k < 8 → Weights.read hs path = .error (.truncatedWeights path.render)) ∧
          (8 ≤ k → k + written.constantSize < bytes.length →
            Weights.read hs path = .error (.headerPastEnd path.render)) ∧
          (bytes.length ≤ k + written.constantSize →
            ∃ rest, Weights.read hs path = .ok (header, rest) ∧
              rest.length < header.constantSize ∧ rest <+: region)) ∧
      ((∀ k < bytes.length, ∀ (hs : FileSystem) (path : Path),
          hs.fileAt? path = some (bytes.take k) → ∃ e, Weights.read hs path = .error e) ↔
        ∀ c ∈ f.namedConstants, c.2.ty.count = 0) := by
  obtain ⟨header, region, stored, fits, size, length, empty⟩ :
      ∃ header region, gs.fileAt? written.weights = some (Weights.encode header region) ∧
        header.Fits ∧ header.constantSize = written.constantSize ∧
        region.length = written.constantSize ∧
        (region.length = 0 ↔ ∀ c ∈ f.namedConstants, c.2.ty.count = 0) := by
    obtain ⟨plan, -, constants, positive, stored, fits, size, length, -, -⟩ :=
      saved_weights_file reached member saved
    rw [← constants, ← Bundle.constantSize_eq_zero_iff plan network positive, ← length]
    exact ⟨_, _, stored, fits, size.symm, length.trans size.symm, Iff.rfl⟩
  have whole := short _ stored
  have total := Weights.length_encode header region
  refine ⟨_, header, region, stored, ?whole, size, length, ?cut,
    (Weights.all_cuts_rejected_iff fits whole stored).trans empty⟩
  case whole =>
    rw [Weights.read, stored]
    exact Weights.decode_encode fits whole _
  case cut =>
    intro k before hs path found
    have cut := Weights.read_take fits whole before found
    rw [Weights.regionStart] at cut
    refine ⟨fun few => ?_, fun enough early => ?_, fun late => ?_⟩
    · rw [cut, if_pos few]
    · rw [cut, if_neg (by omega), if_pos (by omega)]
    · rw [if_neg (by omega), if_neg (by omega)] at cut
      refine ⟨_, cut, ?_, List.take_prefix _ _⟩
      rw [List.length_take]
      omega

theorem cut_weights_rejected_iff_shift :
    ∃ written gs bytes header region,
      Cpu.saveBundle {} Shift.workspace.store Shift.function .infer ⟨["out"]⟩ "net" .empty =
        .ok written gs ∧
      gs.fileAt? written.weights = some bytes ∧
      Weights.read gs written.weights = .ok (header, region) ∧
      header.constantSize = written.constantSize ∧
      ∀ k < bytes.length, ∀ (hs : FileSystem) (path : Path),
        hs.fileAt? path = some (bytes.take k) →
          (k < 8 → Weights.read hs path = .error (.truncatedWeights path.render)) ∧
          (bytes.length ≤ k + written.constantSize →
            ∃ rest, Weights.read hs path = .ok (header, rest) ∧
              rest.length < header.constantSize) := by
  have run : EStateM.run' (do
      let written ← Cpu.saveBundle {} Shift.workspace.store Shift.function .infer ⟨["out"]⟩ "net"
      return ((← get).fileAt? written.weights).all (·.length < UInt64.size)) .empty =
        some true := by decide +kernel
  obtain ⟨_, ended⟩ := state_run'_eq_some.1 run
  obtain ⟨written, gs, saved, small⟩ := state_bind_eq_ok.1 ended
  have within : (gs.fileAt? written.weights).all (·.length < UInt64.size) = true :=
    (EStateM.Result.ok.inj small).1
  have short : ∀ bytes, gs.fileAt? written.weights = some bytes → bytes.length < UInt64.size := by
    intro bytes found
    simpa [found] using within
  obtain ⟨bytes, header, region, stored, whole, size, -, cut, -⟩ :=
    cut_weights_rejected_iff Shift.reachable Shift.member saved short
  refine ⟨written, gs, bytes, header, region, saved, stored, whole, size,
    fun k before hs path found => ?_⟩
  obtain ⟨few, -, late⟩ := cut k before hs path found
  refine ⟨few, fun past => ?_⟩
  obtain ⟨rest, taken, shorter, -⟩ := late past
  exact ⟨rest, taken, shorter⟩

/-- A weights file that lacks its last byte is read, with 63 of 64 bytes of constants. -/
theorem cut_region_is_read :
    ∃ written gs bytes hs header rest,
      Cpu.saveBundle {} Shift.workspace.store Shift.function .infer ⟨["out"]⟩ "net" .empty =
        .ok written gs ∧
      gs.fileAt? written.weights = some bytes ∧
      gs.writeFile? written.weights (bytes.take (bytes.length - 1)) = some hs ∧
      Weights.read hs written.weights = .ok (header, rest) ∧
      header.constantSize = 64 ∧ rest.length = 63 := by
  have run : EStateM.run' (do
      let written ← Cpu.saveBundle {} Shift.workspace.store Shift.function .infer ⟨["out"]⟩ "net"
      let gs ← get
      return do
        let bytes ← gs.fileAt? written.weights
        let hs ← gs.writeFile? written.weights (bytes.take (bytes.length - 1))
        let found ← (Weights.read hs written.weights).toOption
        return (found.1.constantSize, found.2.length)) .empty = some (some (64, 63)) := by
    decide +kernel
  obtain ⟨_, ended⟩ := state_run'_eq_some.1 run
  obtain ⟨written, gs, saved, looked⟩ := state_bind_eq_ok.1 ended
  obtain ⟨bytes, stored, looked⟩ := Option.bind_eq_some_iff.1 (EStateM.Result.ok.inj looked).1
  obtain ⟨hs, cut, looked⟩ := Option.bind_eq_some_iff.1 looked
  obtain ⟨⟨header, rest⟩, read, sizes⟩ := Option.bind_eq_some_iff.1 looked
  obtain ⟨size, length⟩ := Prod.mk.inj (Option.some.inj sizes)
  exact ⟨written, gs, bytes, hs, header, rest, saved, stored, cut, toOption_eq_some.1 read, size,
    length⟩

end TensorGraph
