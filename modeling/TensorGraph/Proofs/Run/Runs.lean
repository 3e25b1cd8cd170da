import TensorGraph.Backend.BuiltIn
import TensorGraph.Proofs.Optimize.Meaning
import TensorGraph.Proofs.Tape.Lowering

/-!
Which functions run. A function of a reachable module is lowered to a plan exactly when none of its
nodes reads a save, and runs on every memory that binds what it reads exactly when, besides, the
elements of all its nodes can be counted. Builders accept a save as an operand, and operands of any
dimensions, so not every function they accept can be run.
-/

namespace TensorGraph

open Workspace

/-- Every placeholder the function reads is bound to a tensor of its type. -/
def Function.Bound (f : Function) (c : Context) : Prop :=
  ∀ p ∈ f.inputs, ∃ t, c.get? p.id = some t ∧ t.ty = p.ty

variable {declared : List Placeholder} {f : Function} {μ : Memory}

theorem Executable.execute_interpreted_eq_ok {μ' : Memory} :
    (Executable.interpreted f).execute μ = .ok () μ' ↔ Interpreter.run f μ = .ok () μ' := by
  rw [Executable.execute, state_adaptExcept]
  cases Interpreter.run f μ <;> simp

theorem Function.Bound.load (bound : f.Bound μ.context) (lawful : f.Lawful declared μ.store)
    (apart : Placeholder.Apart declared) : ∀ p ∈ f.sources, ∃ v, μ.load p = .ok v := by
  intro p source
  exact Memory.exists_load_iff.2 (bound p ((lawful.mem_inputs apart).2 source))

section

variable (lawful : f.Lawful declared μ.store) (good : μ.Lawful)
  (bound : ∀ p ∈ f.sources, ∃ v, μ.load p = .ok v)

include lawful good bound

/-- A function that reads no save and whose elements can be counted goes through, and every value
has its node's type. -/
theorem Interpreter.walk_ok (unsaved : ¬ f.ReadsSave) (fits : f.Fits) :
    ∃ val, Settled f μ f.nodes.length val ∧
      Interpreter.walk f μ = .ok (.upTo val f.nodes) := by
  obtain ⟨val, settled⟩ := exists_settled lawful good unsaved bound fits (Nat.le_refl _)
  have evaluates := settled.evaluates
  rw [List.take_length] at evaluates
  exact ⟨val, settled, (walk_eq_ok lawful.topological).2 ⟨val, evaluates, rfl⟩⟩

theorem Interpreter.run_ok :
    (∃ μ', Interpreter.run f μ = .ok () μ') ↔ ¬ f.ReadsSave ∧ f.Fits := by
  constructor
  · rintro ⟨μ', ran⟩
    obtain ⟨val, evaluates, -⟩ := (run_eq_ok lawful.topological).1 ran
    exact ⟨fun readsSave => not_evaluates readsSave evaluates, evaluates.fits lawful good⟩
  · rintro ⟨unsaved, fits⟩
    obtain ⟨val, settled, walked⟩ := Interpreter.walk_ok lawful good bound unsaved fits
    have saved : ∀ entry ∈ f.saved val, entry.2.WellFormed ∧ entry.2.ty = entry.1.ty :=
      fun entry member => settled.saved lawful (by rwa [List.take_length])
    obtain ⟨μ', delivered, -⟩ := deliverAll_ok good saved
    exact ⟨μ', by rw [run_eq, walked]; exact delivered⟩

/-- With everything it reads bound, a function that reads no save can only stop for a value that
cannot be counted. -/
theorem Interpreter.run_overflow (unsaved : ¬ f.ReadsSave) (unfit : ¬ f.Fits) :
    Interpreter.run f μ = .error .overflow μ := by
  obtain ⟨val, settled⟩ | ⟨i, -, e, val, stuck⟩ :=
    settled_or_stuck lawful good unsaved (Nat.le_refl _)
  · have evaluates := settled.evaluates
    rw [List.take_length] at evaluates
    exact (unfit (evaluates.fits lawful good)).elim
  · have walked := Interpreter.walk_of_stuck lawful stuck
    obtain ⟨n, found, stops⟩ := stuck.stops
    cases stops with
    | unread op failed =>
      obtain ⟨v, loaded⟩ := bound _ (Function.mem_sources.2 ⟨i, n, found, op⟩)
      cases failed.symm.trans loaded
    | overflow => rw [run_eq, walked]

end

/-- A function built and optimized in any way has a plan exactly when no node reads a save, and on
bound inputs it runs when, besides, the elements of every node can be counted. Then every node that
is no save has a value of its own type. Where they cannot be counted, the program stops. -/
theorem runs_iff_reads_no_save {w : Workspace} (reached : w.Reachable) {f : Function}
    (member : f ∈ w.module.functions) :
    ((∃ plan, Plan.ofFunction f = .ok plan) ↔ ¬ f.ReadsSave) ∧
    ∀ c : Context, Memory.Lawful ⟨w.store, c⟩ → f.Bound c →
      ((∃ μ, (Executable.interpreted f).execute ⟨w.store, c⟩ = .ok () μ) ↔
        ¬ f.ReadsSave ∧ f.Fits) ∧
      (¬ f.ReadsSave → f.Fits → ∃ walk, Interpreter.walk f ⟨w.store, c⟩ = .ok walk ∧
        ∀ (i : Nat) (n : Node), f.nodes[i]? = some n → n.op.isSave = false →
          ∃ v, walk.values[i]? = some (some v) ∧ v.WellFormed ∧ v.ty = n.ty) ∧
      (¬ f.ReadsSave → ¬ f.Fits →
        (Executable.interpreted f).execute ⟨w.store, c⟩ = .error .overflow ⟨w.store, c⟩) := by
  obtain ⟨-, lawful⟩ := reached.lawful.functions f member
  refine ⟨Plan.ofFunction_ok lawful, fun c good bound => ?_⟩
  have loaded : ∀ p ∈ f.sources, ∃ v, Memory.load ⟨w.store, c⟩ p = .ok v :=
    bound.load lawful reached.lawful.apart
  refine ⟨?_, fun unsaved fits => ?_, fun unsaved unfit => ?_⟩
  · simp only [Executable.execute_interpreted_eq_ok]
    exact Interpreter.run_ok lawful good loaded
  · obtain ⟨val, settled, walked⟩ := Interpreter.walk_ok lawful good loaded unsaved fits
    refine ⟨_, walked, fun i n found other => ?_⟩
    have inside := (List.getElem?_eq_some_iff.1 found).1
    have gives := settled.gives i n inside found
    have value : (Interpreter.Walk.upTo val f.nodes).values[i]? = some (val i) := by
      rw [Interpreter.Walk.upTo, List.getElem?_map, List.getElem?_range inside]
      rfl
    rw [value]
    cases result : val i with
    | none =>
      rw [result] at gives
      cases other.symm.trans gives
    | some v =>
      rw [result] at gives
      exact ⟨v, rfl, gives.2⟩
  · rw [Executable.execute, state_adaptExcept,
      Interpreter.run_overflow lawful good loaded unsaved unfit]
    rfl

namespace Workspace.Shift

theorem good {σ : Store} (held : σ.Holds handle) : Memory.Lawful ⟨σ, bindings⟩ := by
  refine Memory.lawful_of_entries fun entry member => ?_
  rcases List.mem_cons.1 member with rfl | member
  · exact held
  · rw [List.mem_singleton.1 member]
    exact held

theorem bound {f : Function} (inputs : f.inputs = [source]) : f.Bound bindings := by
  intro p member
  rw [inputs, List.mem_singleton] at member
  exact ⟨handle, by rw [member]; rfl, by rw [member]; rfl⟩

end Workspace.Shift

theorem runs_iff_reads_no_save_shift :
    ¬ Shift.function.ReadsSave ∧ ∃ μ,
      (Executable.interpreted Shift.function).execute ⟨Shift.workspace.store, Shift.bindings⟩ =
        .ok () μ := by
  obtain ⟨plans, runs⟩ := runs_iff_reads_no_save Shift.reachable Shift.member
  have unsaved : ¬ Shift.function.ReadsSave := by
    refine plans.1 ?_
    cases made : Plan.ofFunction Shift.function with
    | ok plan => exact ⟨plan, rfl⟩
    | error e =>
      have lowers : (Plan.ofFunction Shift.function).isOk = true := by decide
      rw [made] at lowers
      cases lowers
  obtain ⟨ran, -⟩ := runs Shift.bindings (Shift.good Shift.held) (Shift.bound (by decide))
  exact ⟨unsaved, ran.2 ⟨unsaved, by decide⟩⟩

namespace Workspace.Echo

def workspace : Workspace :=
  [Action.declare .float (.vector 2) "x" false, .declare .float (.vector 2) "y" false,
    .create "echo", .build "echo" (.input Shift.source),
    .build "echo" (.save "saved" 0 Shift.target),
    .build "echo" (.unary "cut" .relu 1)].foldl perform ⟨⟨#[Shift.pair 1 (-3)]⟩, .empty ⟨0⟩⟩

def function : Function := workspace.module.functions.headD (.empty "" ⟨0⟩)

theorem reachable : workspace.Reachable :=
  (Reachable.start _ _).run ⟨trivial, trivial, trivial, fun _ => by decide, fun _ => by decide,
    trivial, trivial⟩

theorem held : workspace.store.Holds Shift.handle := Shift.held

end Workspace.Echo

/-- Builders made this function of float nodes and its input is bound, but it has no plan and
does not run. -/
theorem echo_does_not_run :
    Echo.workspace.Reachable ∧ Echo.function ∈ Echo.workspace.module.functions ∧
    Echo.function.size = 3 ∧ (∀ n ∈ Echo.function.nodes, n.ty.kind.isFloat) ∧
    Plan.ofFunction Echo.function = .error (.operandHasNoSlot "cut" 1) ∧
    Interpreter.compile Echo.function .infer = .ok (.interpreted Echo.function) ∧
    Memory.Lawful ⟨Echo.workspace.store, Shift.bindings⟩ ∧ Echo.function.Bound Shift.bindings ∧
    (Executable.interpreted Echo.function).execute ⟨Echo.workspace.store, Shift.bindings⟩ =
      .error ((Error.valueNotComputed "cut" 1).whileRunning "echo")
        ⟨Echo.workspace.store, Shift.bindings⟩ :=
  ⟨Echo.reachable, by decide, by decide, by decide, by decide, rfl, Shift.good Echo.held,
    Shift.bound (by decide), by rfl⟩

end TensorGraph
