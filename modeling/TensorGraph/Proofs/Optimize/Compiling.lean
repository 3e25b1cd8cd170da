import TensorGraph.Proofs.Optimize.Carrying
import TensorGraph.Proofs.Run.Failure

/-!
Optimizing and compiling. The optimizer knows nothing of backends, and need not: what it puts in
place of a node has the node's type, and does what the node did, or is a constant, or a cut-off
sum, which every built-in backend supports wherever it supports anything. Nor does any pass make a
node read a save that was not read before. So what a built-in backend compiles it still compiles
after any passes.
-/

namespace TensorGraph

open Workspace

/-- The library's own backends, under any settings. -/
inductive Backend.BuiltIn : Backend → Prop where
  | interpreter : BuiltIn Interpreter.backend
  | cpu (config : Cpu.Config) : BuiltIn (Cpu.backend config)

/-- What a compiling backend cares about in `g` was in `f` already: the types of the nodes, what
they do, but for constants and cut-off sums, and the reads of saves. -/
structure Function.Within (g f : Function) : Prop where
  nodes : ∀ m ∈ g.nodes, ∃ n ∈ f.nodes, m.ty = n.ty ∧
    (m.kind = n.kind ∨ m.kind = .constant ∨ m.kind = .addRelu)
  reads : g.ReadsSave → f.ReadsSave

variable {declared : List Placeholder} {σ τ υ : Store} {f g h : Function} {n m : Node} {i : Nat}

namespace Function

theorem Within.refl (f : Function) : f.Within f :=
  ⟨fun n member => ⟨n, member, rfl, .inl rfl⟩, id⟩

theorem Within.trans (second : h.Within g) (first : g.Within f) : h.Within f := by
  refine ⟨fun k member => ?_, fun reads => first.reads (second.reads reads)⟩
  obtain ⟨m, present, type, does⟩ := second.nodes k member
  obtain ⟨n, source, type', does'⟩ := first.nodes m present
  refine ⟨n, source, type.trans type', ?_⟩
  rcases does with same | made
  · rwa [same]
  · exact .inr made

theorem within_foldConstants {count : Nat} (folded : f.foldConstants σ = .ok (g, count) τ) :
    g.Within f := by
  obtain ⟨place, length⟩ := foldConstants_inPlace folded
  have before {i : Nat} {m : Node} (found : g.nodes[i]? = some m) :
      ∃ n, f.nodes[i]? = some n ∧ (m = n ∨ ∃ t, m = { n with op := .constant t }) := by
    have source := List.getElem?_eq_getElem (length ▸ (List.getElem?_eq_some_iff.1 found).1)
    exact ⟨_, source, (place i _ m source found).imp_right And.left⟩
  refine ⟨fun m member => ?_, ?_⟩
  · obtain ⟨i, found⟩ := List.mem_iff_getElem?.1 member
    obtain ⟨n, source, rfl | ⟨t, rfl⟩⟩ := before found
    · exact ⟨m, List.mem_of_getElem? source, rfl, .inl rfl⟩
    · exact ⟨n, List.mem_of_getElem? source, rfl, .inr (.inl rfl)⟩
  · rintro ⟨m, member, x, operand, k, read, save⟩
    obtain ⟨i, found⟩ := List.mem_iff_getElem?.1 member
    obtain ⟨n, source, rfl | ⟨t, rfl⟩⟩ := before found
    · obtain ⟨l, there, rfl | ⟨t, rfl⟩⟩ := before read
      · exact ⟨m, List.mem_of_getElem? source, x, operand, k, there, save⟩
      · cases save
    · cases operand

/-- Readers are sent to a node that does the same, which is no save unless the first one was. -/
theorem Lawful.within_mergeCommon (lawful : f.Lawful declared σ) : f.mergeCommon.1.Within f := by
  have nodes := mergeCommon_nodes lawful.topological
  refine ⟨fun m member => ?_, ?_⟩
  · rw [nodes] at member
    obtain ⟨n, source, rfl⟩ := List.mem_map.1 member
    exact ⟨n, source, rfl, .inl (Op.kind_map _ _)⟩
  · rintro ⟨m, member, x, operand, k, read, save⟩
    obtain ⟨tidy, -⟩ := merging_tidy lawful.topological
    have unkeyed := Node.key?_of_save save
    rw [nodes] at member
    obtain ⟨n, source, rfl⟩ := List.mem_map.1 member
    rw [Node.rename, Op.operands_map] at operand
    obtain ⟨y, reads, rfl⟩ := List.mem_map.1 operand
    -- A reader that was sent elsewhere reads a node on record, and no save is on record.
    have stays : f.merging.redirect y = y := by
      by_contra away
      obtain ⟨-, -, key, -, -, seen⟩ := tidy.moved y away
      obtain ⟨-, k', there, keyed⟩ := tidy.recorded key _ seen
      obtain rfl := Option.some.inj (there.symm.trans read)
      cases unkeyed.symm.trans keyed
    rw [stays, nodes, List.getElem?_map] at read
    obtain ⟨l, there, rfl⟩ := Option.map_eq_some_iff.1 read
    exact ⟨n, source, y, reads, l, there, (Op.isSave_map _ _).symm.trans save⟩

theorem within_fuseAddRelu (f : Function) : f.fuseAddRelu.1.Within f := by
  refine ⟨fun m member => ?_, ?_⟩
  · obtain ⟨i, found⟩ := List.mem_iff_getElem?.1 member
    obtain ⟨n, source, rfl | ⟨-, a, b, -, -, -, -, rfl⟩⟩ := fuseAddRelu_cases found
    · exact ⟨m, List.mem_of_getElem? source, rfl, .inl rfl⟩
    · exact ⟨n, List.mem_of_getElem? source, rfl, .inr (.inr rfl)⟩
  · rintro ⟨m, member, x, operand, k, read, save⟩
    have source : ∃ k, f.nodes[x]? = some k ∧ k.op.isSave = true := by
      obtain ⟨l, there, rfl | ⟨-, a, b, -, -, -, -, rfl⟩⟩ := fuseAddRelu_cases read
      · exact ⟨k, there, save⟩
      · cases save
    obtain ⟨i, found⟩ := List.mem_iff_getElem?.1 member
    obtain ⟨n, present, rfl | ⟨y, a, b, sum, -, there, add, rfl⟩⟩ := fuseAddRelu_cases found
    · exact ⟨m, List.mem_of_getElem? present, x, operand, source⟩
    · refine ⟨sum, List.mem_of_getElem? there, x, ?_, source⟩
      rw [add]
      exact operand

theorem Lawful.within_prune (lawful : f.Lawful declared σ) : f.prune.1.Within f := by
  refine ⟨fun m member => ?_, ?_⟩
  · obtain ⟨j, found⟩ := List.mem_iff_getElem?.1 member
    obtain ⟨i, n, source, -, -, rfl⟩ := prune_getElem? found
    exact ⟨n, List.mem_of_getElem? source, rfl, .inl (Op.kind_map _ _)⟩
  · rintro ⟨m, member, x, operand, k, read, save⟩
    obtain ⟨j, found⟩ := List.mem_iff_getElem?.1 member
    obtain ⟨i, n, source, live, -, rfl⟩ := prune_getElem? found
    rw [Node.rename, Op.operands_map] at operand
    obtain ⟨y, reads, rfl⟩ := List.mem_map.1 operand
    obtain ⟨z, l, there, kept, same, rfl⟩ := prune_getElem? read
    obtain rfl := position_injective kept (lawful.live_operand source live reads) same
    exact ⟨n, List.mem_of_getElem? source, z, reads, l, there, (Op.isSave_map _ _).symm.trans save⟩

theorem Lawful.within_apply (lawful : f.Lawful declared σ) {pass : Pass} {count : Nat}
    (applied : pass.apply f σ = .ok (g, count) τ) : g.Within f := by
  cases pass with
  | fold => exact within_foldConstants applied
  | merge =>
    cases applied
    exact lawful.within_mergeCommon
  | fuse =>
    cases applied
    exact f.within_fuseAddRelu
  | prune =>
    cases applied
    exact lawful.within_prune

end Function

theorem Rewritten.within (rewritten : Rewritten f σ g τ) (lawful : f.Lawful declared σ)
    (apart : Placeholder.Apart declared) : g.Within f := by
  induction rewritten with
  | start => exact .refl f
  | pass pass before applied ih =>
    exact ((before.agrees lawful apart).lawful.within_apply applied).trans ih
  | tensors _ _ _ ih => exact ih

theorem Interpreter.compiles_iff (mode : Mode) :
    (∃ exe, Interpreter.compile f mode = .ok exe) ↔
      ∀ n ∈ f.nodes, Interpreter.supports n.kind n.ty.kind = true := by
  constructor
  · rintro ⟨exe, compiled⟩
    obtain ⟨u, supported, -⟩ := bind_eq_ok.1 compiled
    exact Backend.requireSupport_eq_ok.1 supported
  · intro supported
    exact ⟨_, bind_eq_ok.2 ⟨(), Backend.requireSupport_eq_ok.2 supported, rfl⟩⟩

theorem Cpu.compiles_iff (lawful : f.Lawful declared σ) {config : Config} {mode : Mode} :
    (∃ exe, Cpu.compile config f mode = .ok exe) ↔
      mode = .infer ∧ (∀ n ∈ f.nodes, n.ty.kind.isFloat = true) ∧ ¬ f.ReadsSave := by
  constructor
  · rintro ⟨exe, compiled⟩
    obtain rfl := infer_of_compile compiled
    obtain ⟨plan, -, planned, floats⟩ := compile_eq_ok compiled
    exact ⟨rfl, floats, (Plan.ofFunction_ok lawful).1 ⟨plan, planned⟩⟩
  · rintro ⟨rfl, floats, unsaved⟩
    obtain ⟨plan, planned⟩ := (Plan.ofFunction_ok lawful).2 unsaved
    have supported : Backend.requireSupport .cpu supports f = .ok () :=
      Backend.requireSupport_eq_ok.2 floats
    have lowered : lower f .infer = .ok plan :=
      bind_eq_ok.2 ⟨(), supported, by rw [planned]; rfl⟩
    exact ⟨_, bind_eq_ok.2 ⟨plan, lowered, rfl⟩⟩

theorem Function.Within.supported (within : g.Within f) {b : Backend} (builtIn : b.BuiltIn)
    (supported : ∀ n ∈ f.nodes, b.supports n.kind n.ty.kind = true) :
    ∀ m ∈ g.nodes, b.supports m.kind m.ty.kind = true := by
  intro m member
  obtain ⟨n, present, type, does⟩ := within.nodes m member
  have before := supported n present
  rw [type]
  cases builtIn with
  | interpreter =>
    rcases does with same | constant | fused
    · rw [same]
      exact before
    · rw [constant]
      rfl
    · rw [fused]
      rfl
  | cpu config => exact before

theorem Function.Within.compiles (within : g.Within f) {b : Backend} (builtIn : b.BuiltIn)
    (before : f.Lawful declared σ) (after : g.Lawful declared τ) {mode : Mode}
    (compiles : ∃ exe, b.compile f mode = .ok exe) :
    (∀ n ∈ g.nodes, b.supports n.kind n.ty.kind = true) ∧
      ∃ exe, b.compile g mode = .ok exe := by
  cases builtIn with
  | interpreter =>
    have supported := within.supported .interpreter ((Interpreter.compiles_iff mode).1 compiles)
    exact ⟨supported, (Interpreter.compiles_iff mode).2 supported⟩
  | cpu config =>
    obtain ⟨infer, floats, unsaved⟩ := (Cpu.compiles_iff before).1 compiles
    have supported := within.supported (.cpu config) floats
    exact ⟨supported, (Cpu.compiles_iff after).2
      ⟨infer, supported, fun reads => unsaved (within.reads reads)⟩⟩

/-- After any passes on a function that was built and optimized in any way, every pass goes on,
unless folding comes to a value that cannot be counted, and a built-in backend that compiles the
function compiles the rewriting in the same mode: it supports each of its nodes, and no save is read
that was not read before. -/
theorem rewriting_stays_compilable {w : Workspace} (reached : w.Reachable) {f : Function}
    (member : f ∈ w.module.functions) {g : Function} {τ : Store}
    (rewritten : Rewritten f w.store g τ) :
    (∀ pass : Pass, (∃ h count υ, pass.apply g τ = .ok (h, count) υ ∧
      Rewritten f w.store h υ) ∨ f.Overflows (pass.apply g) τ) ∧
    (g.ReadsSave → f.ReadsSave) ∧
    ∀ b : Backend, b.BuiltIn → ∀ mode exe, b.compile f mode = .ok exe →
      (∀ n ∈ g.nodes, b.supports n.kind n.ty.kind = true) ∧
        ∃ exe', b.compile g mode = .ok exe' := by
  obtain ⟨-, lawful⟩ := reached.lawful.functions f member
  have apart := reached.lawful.apart
  have agrees := rewritten.agrees lawful apart
  have after := agrees.lawful
  have within := rewritten.within lawful apart
  refine ⟨fun pass => ?_, within.reads, fun b builtIn mode exe compiled => ?_⟩
  · obtain ⟨h, count, υ, made, -⟩ | past := after.apply apart pass
    · exact .inl ⟨h, count, υ, made, .pass pass rewritten made⟩
    · exact .inr (agrees.overflows past)
  · exact within.compiles builtIn lawful after ⟨exe, compiled⟩

/-- With its sum taken into the cut-off, the function is still compiled for the CPU. -/
theorem rewriting_stays_compilable_shift :
    let fused := Shift.function.fuseAddRelu.1.prune.1
    fused.countKind .addRelu = 1 ∧ (∃ tape, Cpu.compile {} Shift.function .infer = .ok tape) ∧
      ∃ tape, Cpu.compile {} fused .infer = .ok tape := by
  intro fused
  have rewritten : Rewritten Shift.function Shift.workspace.store fused Shift.workspace.store :=
    .pass .prune (.pass .fuse .start rfl) rfl
  obtain ⟨tape, compiled⟩ := Shift.compiles
  obtain ⟨-, -, compiles⟩ := rewriting_stays_compilable Shift.reachable Shift.member rewritten
  exact ⟨by decide, ⟨tape, compiled⟩, (compiles _ (.cpu {}) .infer tape compiled).2⟩

end TensorGraph
