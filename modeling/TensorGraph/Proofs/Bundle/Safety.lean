import TensorGraph.Proofs.Bundle.Exporting
import TensorGraph.Proofs.Bundle.Packing
import TensorGraph.Proofs.Optimize.Compiling

/-!
Exports that end the program. Nothing an export looks up or writes is out of range, so that only
its arithmetic can stop it: rounding to an alignment of 0, which a configuration has when its field
is set to it, and regions that cannot be measured in words.
-/

namespace TensorGraph

/-- An export that comes back to its caller, with a value or with an error. -/
inductive Export.Answers {α : Type} : EStateM.Result ExportFailure FileSystem α → Prop where
  | value (a : α) (fs : FileSystem) : Answers (.ok a fs)
  | error {e : Error} (other : e ≠ .overflow) (fs : FileSystem) : Answers (.error (.error e) fs)

section

variable {α : Type} {fs : FileSystem}

theorem Export.not_answers :
    ¬ Export.Answers (.error .divisionByZero fs : EStateM.Result ExportFailure FileSystem α) := by
  intro answers
  cases answers

theorem Export.answers_error_iff {e : Error} :
    Export.Answers (.error (.error e) fs : EStateM.Result ExportFailure FileSystem α) ↔
      e ≠ .overflow := by
  constructor
  · intro answers
    cases answers
    assumption
  · exact fun other => .error other fs

end

theorem Bundle.write_answers_iff (σ : Store) (plan : Plan) (directory : Path) (network : String)
    (alignment : Nat) (fs : FileSystem) :
    Export.Answers (Bundle.write σ plan directory network alignment fs) ↔
      ¬ (Bundle.isNetworkName network = true ∧ (alignment = 0 ∨ ¬ Measurable plan alignment)) := by
  rw [write_eq]
  cases valid : Bundle.isNetworkName network with
  | false => simp [Export.answers_error_iff]
  | true =>
    by_cases zero : alignment = 0
    · simp [zero, Export.not_answers]
    · have positive := Nat.pos_of_ne_zero zero
      rw [if_neg (by simp), if_neg zero]
      cases laid : layOut plan network alignment with
      | error e =>
        have unmeasured : ¬ Measurable plan alignment := fun measured => by
          rw [(layOut_eq_ok positive).2 ⟨measured, rfl⟩] at laid
          cases laid
        simp [Export.answers_error_iff, eq_overflow_of_layOut laid, unmeasured]
      | ok b =>
        obtain ⟨measured, -⟩ := (layOut_eq_ok positive).1 laid
        dsimp only
        split <;> simp [zero, measured, Export.Answers.value, Export.answers_error_iff]

section

open private Nat.nextPowerOfTwo.go from Init.Data.Nat.Power2.Basic

theorem nextPowerOfTwo_go_spec {n power : Nat} (positive : 0 < power) (below : power < 2 * n) :
    n ≤ Nat.nextPowerOfTwo.go n power positive ∧
      Nat.nextPowerOfTwo.go n power positive < 2 * n := by
  unfold Nat.nextPowerOfTwo.go
  split
  next => exact nextPowerOfTwo_go_spec _ (by omega)
  next => omega
termination_by n - power

end

theorem nextPowerOfTwo_spec {n : Nat} (positive : 0 < n) :
    n ≤ n.nextPowerOfTwo ∧ n.nextPowerOfTwo < 2 * n :=
  nextPowerOfTwo_go_spec Nat.one_pos (by omega)

/-- A configuration can be given any alignment up to the greatest power of two in a word, and none
of these becomes 0. -/
theorem Cpu.Config.withAlignment_spec (config : Cpu.Config) (n : Nat) :
    (config.withAlignment n = .error .overflow ↔ 2 ^ 63 < n) ∧
      ∀ c, config.withAlignment n = .ok c → 0 < c.alignment := by
  obtain ⟨k, power⟩ := Nat.isPowerOfTwo_nextPowerOfTwo (max n 1)
  obtain ⟨above, below⟩ := nextPowerOfTwo_spec (n := max n 1) (by omega)
  have word : 2 ^ k < Word.bound ↔ n ≤ 2 ^ 63 := by
    rw [power] at above below
    constructor
    · intro small
      have below : k < 64 := (Nat.pow_lt_pow_iff_right (by decide : 1 < 2)).1 small
      have := Nat.pow_le_pow_right (by decide : 0 < 2) (Nat.lt_succ_iff.1 below)
      omega
    · intro small
      change 2 ^ k < 2 ^ 64
      omega
  have checked : config.withAlignment n =
      (Word.check (2 ^ k)).map fun alignment => { config with alignment } := by
    rw [withAlignment, power]
    rfl
  rw [checked, Word.check]
  by_cases small : n ≤ 2 ^ 63
  · rw [if_pos (word.2 small)]
    refine ⟨⟨?_, fun large => absurd small (by omega)⟩, ?_⟩
    · intro failed
      cases failed
    · intro c made
      cases made
      exact Nat.two_pow_pos k
  · rw [if_neg (mt word.1 small)]
    refine ⟨⟨fun _ => by omega, fun _ => rfl⟩, ?_⟩
    intro c made
    cases made

theorem Cpu.lowers_iff {declared : List Placeholder} {σ : Store} {f : Function} {mode : Mode}
    (lawful : f.Lawful declared σ) :
    (∃ plan, Cpu.lower f mode = .ok plan) ↔
      mode = .infer ∧ (∀ n ∈ f.nodes, n.ty.kind.isFloat = true) ∧ ¬ f.ReadsSave := by
  have compiles : (∃ exe, Cpu.compile {} f mode = .ok exe) ↔ _ := Cpu.compiles_iff lawful
  rw [← compiles]
  constructor
  · rintro ⟨plan, lowered⟩
    exact ⟨_, bind_eq_ok.2 ⟨plan, lowered, rfl⟩⟩
  · rintro ⟨exe, compiled⟩
    obtain ⟨plan, lowered, -⟩ := bind_eq_ok.1 compiled
    exact ⟨plan, lowered⟩

theorem Cpu.lower_ne_overflow (f : Function) (mode : Mode) :
    Cpu.lower f mode ≠ .error .overflow := by
  have supported : Backend.requireSupport .cpu supports f ≠ .error .overflow := by
    unfold Backend.requireSupport
    split <;> nofun
  have planned : (Plan.ofFunction f).mapError (·.whileCompiling f.name) ≠ .error .overflow := by
    cases made : Plan.ofFunction f with
    | ok plan => nofun
    | error e =>
      intro failed
      obtain rfl := Error.whileCompiling_eq_overflow.1 (Except.error.inj failed)
      exact Plan.ofFunction_ne_overflow f made
  unfold lower
  split
  · nofun
  · exact bind_ne_overflow supported fun _ => planned

theorem Cpu.saveBundle_answers_iff (config : Cpu.Config) (σ : Store) (f : Function) (mode : Mode)
    (directory : Path) (network : String) (fs : FileSystem) :
    Export.Answers (Cpu.saveBundle config σ f mode directory network fs) ↔
      ¬ (Bundle.isNetworkName network = true ∧ ∃ plan, Cpu.lower f mode = .ok plan ∧
        (config.alignment = 0 ∨ ¬ Bundle.Measurable plan config.alignment)) := by
  rw [Cpu.saveBundle_eq]
  cases valid : Bundle.isNetworkName network with
  | false => simp [Export.answers_error_iff]
  | true =>
    rw [if_neg (by simp)]
    cases lowered : Cpu.lower f mode with
    | ok plan => simp [Bundle.write_answers_iff, valid]
    | error e =>
      have other : e ≠ .overflow := by
        rintro rfl
        exact Cpu.lower_ne_overflow f mode lowered
      simp [Export.answers_error_iff, other]

theorem Cpu.saveBundle_unaligned {config : Cpu.Config} {f : Function} {mode : Mode} {plan : Plan}
    {network : String} (zero : config.alignment = 0) (valid : Bundle.isNetworkName network = true)
    (lowered : Cpu.lower f mode = .ok plan) (σ : Store) (directory : Path) (fs : FileSystem) :
    Cpu.saveBundle config σ f mode directory network fs = .error .divisionByZero fs := by
  rw [Cpu.saveBundle_eq, if_neg (by simp [valid]), lowered]
  dsimp only
  rw [Bundle.write_eq, if_neg (by simp [valid]), if_pos zero]

/-- The function has a plan, and a region of it cannot be measured in words. -/
def Function.Oversized (f : Function) (alignment : Nat) : Prop :=
  ∃ plan, Plan.ofFunction f = .ok plan ∧ ¬ Bundle.Measurable plan alignment

open Workspace

/-- An export of any function, in any mode, under any name and with any configuration, comes back
with a bundle or an error, unless the network's name is valid, the function can be lowered, and the
alignment is 0 or the sizes overflow. No alignment can be asked for past `2 ^ 63`, and none up to it
becomes 0. Nodes have their operands, before them; the tape has the slots that it touches; and for a
positive alignment the constants are written inside of their region. That a region in memory has
room for at most `2 ^ 63 - 1` bytes is left out. -/
theorem export_answers_iff {w : Workspace} (reached : w.Reachable) {f : Function}
    (member : f ∈ w.module.functions) (config : Cpu.Config) (mode : Mode) (directory : Path)
    (network : String) (fs : FileSystem) :
    (Export.Answers (Cpu.saveBundle config w.store f mode directory network fs) ↔
      ¬ (Bundle.isNetworkName network = true ∧ mode = .infer ∧
        (∀ n ∈ f.nodes, n.ty.kind.isFloat = true) ∧ ¬ f.ReadsSave ∧
        (config.alignment = 0 ∨ f.Oversized config.alignment))) ∧
    (∀ n, (config.withAlignment n = .error .overflow ↔ 2 ^ 63 < n) ∧
      ∀ c, config.withAlignment n = .ok c → 0 < c.alignment) ∧
    (∀ (i : Nat) (n : Node), f.nodes[i]? = some n →
      n.op.operands.length = n.kind.arity ∧ ∀ x : Nat, x ∈ n.op.operands → x < i) ∧
    ∀ plan, Plan.ofFunction f = .ok plan →
      (∀ i ∈ plan.instructions, ∀ slot ∈ i.touches, slot < plan.slotTypes.length) ∧
      (0 < config.alignment →
        let b := Bundle.ofPlan plan network config.alignment
        b.constantBytes? w.store = some (b.constantBytes w.store)) := by
  obtain ⟨-, lawful⟩ := reached.lawful.functions f member
  refine ⟨?_, config.withAlignment_spec, fun i n found => ?_,
    fun plan lowered => ⟨Plan.touches lowered, fun positive => ?_⟩⟩
  · rw [Cpu.saveBundle_answers_iff]
    refine not_congr (and_congr_right fun _ => ?_)
    have lowers : (∃ plan, Cpu.lower f mode = .ok plan) ↔ _ := Cpu.lowers_iff lawful
    constructor
    · rintro ⟨plan, lowered, stops⟩
      obtain ⟨infer, floats, unsaved⟩ := lowers.1 ⟨plan, lowered⟩
      exact ⟨infer, floats, unsaved,
        stops.imp_right fun large => ⟨plan, (Cpu.lower_eq_ok lowered).1, large⟩⟩
    · rintro ⟨infer, floats, unsaved, stops⟩
      obtain ⟨plan, lowered⟩ := lowers.2 ⟨infer, floats, unsaved⟩
      refine ⟨plan, lowered, stops.imp_right ?_⟩
      rintro ⟨plan', planned, large⟩
      obtain rfl := Except.ok.inj (planned.symm.trans (Cpu.lower_eq_ok lowered).1)
      exact large
  · exact ⟨n.op.length_operands, fun x read => lawful.operand_lt found read⟩
  · refine Bundle.constantBytes?_ofPlan positive ?_ network
    rw [Plan.constants_eq lowered]
    exact lawful.holds_constants

theorem Shift.lowers : ∃ plan, Cpu.lower Shift.function .infer = .ok plan := by
  obtain ⟨-, lawful⟩ := Shift.reachable.lawful.functions _ Shift.member
  obtain ⟨plan, planned, -⟩ := Plan.read_off (f := Shift.function) (fun _ => ()) () (by decide)
  exact (Cpu.lowers_iff lawful).2 ⟨rfl, by decide, (Plan.ofFunction_ok lawful).1 ⟨plan, planned⟩⟩

theorem export_answers_iff_shift :
    Export.Answers (Cpu.saveBundle { alignment := 24 } Shift.workspace.store Shift.function .infer
      ⟨["out"]⟩ "net" .empty) := by
  obtain ⟨answers, -⟩ := export_answers_iff Shift.reachable Shift.member { alignment := 24 } .infer
    ⟨["out"]⟩ "net" .empty
  obtain ⟨plan, made, measured⟩ := Plan.read_off (f := Shift.function)
    (fun plan => (Bundle.layOut plan "net" 24).isOk) true (by decide)
  refine answers.2 fun stops => ?_
  obtain ⟨-, -, -, -, zero | ⟨plan', made', large⟩⟩ := stops
  · cases zero
  · obtain rfl := Except.ok.inj (made.symm.trans made')
    obtain ⟨b, laid⟩ := exists_of_isOk measured
    exact large ((Bundle.layOut_eq_ok (by decide)).1 laid).1

/-- An alignment of 0 ends the program, and so does asking for one past `2 ^ 63`. -/
theorem export_divides_by_zero :
    Shift.workspace.Reachable ∧ Shift.function ∈ Shift.workspace.module.functions ∧
    Cpu.saveBundle { alignment := 0 } Shift.workspace.store Shift.function .infer ⟨["out"]⟩ "net"
      .empty = .error .divisionByZero .empty ∧
    Cpu.Config.withAlignment {} (2 ^ 63 + 1) = .error .overflow := by
  obtain ⟨plan, lowered⟩ := Shift.lowers
  exact ⟨Shift.reachable, Shift.member, Cpu.saveBundle_unaligned rfl (by decide) lowered _ _ _,
    (Cpu.Config.withAlignment_spec _ _).1.2 (by decide)⟩

end TensorGraph
