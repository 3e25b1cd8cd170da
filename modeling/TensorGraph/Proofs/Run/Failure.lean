import TensorGraph.Proofs.Tape.Refinement

/-!
How a run fails. What is saved is left in its placeholders only once every node has run, and
leaving it cannot fail, so a run that fails has changed nothing. A function that reads no save
fails for its inputs alone, and the first input that cannot be read gives the cause, unless the
program stops before, at a product whose elements cannot be counted.
-/

namespace TensorGraph

open Workspace

variable {declared : List Placeholder} {f : Function} {c : Context} {μ μ' : Memory}
  {p : Placeholder} {e : Error} {val : NodeId → Option Value}

/-- Why a placeholder cannot be read. A difference in kind hides one in shape. -/
inductive Context.Refuses (c : Context) (p : Placeholder) : Error → Prop where
  | unbound (missing : c.get? p.id = none) : Refuses c p (.unboundPlaceholder p.name)
  | kind {t : Tensor} (bound : c.get? p.id = some t) (differs : p.ty.kind ≠ t.ty.kind) :
      Refuses c p (.elementKindMismatch p.ty.kind t.ty.kind)
  | shape {t : Tensor} (bound : c.get? p.id = some t) (kinds : p.ty.kind = t.ty.kind)
      (differs : p.ty.shape ≠ t.ty.shape) : Refuses c p (.shapeMismatch p.ty.shape t.ty.shape)

theorem Context.load_eq_error : c.load p = .error e ↔ c.Refuses p e := by
  constructor
  · intro failed
    unfold Context.load at failed
    cases bound : c.get? p.id with
    | none =>
      rw [bound] at failed
      cases failed
      exact .unbound bound
    | some t =>
      simp only [bound, TensorType.expectEq] at failed
      split at failed
      next differs =>
        cases failed
        exact .kind bound differs
      next kinds =>
        split at failed
        next differs =>
          cases failed
          exact .shape bound (not_not.1 kinds) differs
        next => cases failed
  · intro refuses
    cases refuses with
    | unbound missing => simp [Context.load, missing]
    | kind bound differs => simp [Context.load, bound, TensorType.expectEq, differs]
    | shape bound kinds differs => simp [Context.load, bound, TensorType.expectEq, kinds, differs]

/-- A refusal does not name a function yet, so a run that reports it wraps it. -/
theorem Context.Refuses.whileRunning (refuses : c.Refuses p e) (function : String) :
    e.whileRunning function = .execution function e := by
  cases refuses <;> rfl

/-- The first input, in node order, whose placeholder cannot be read gives this cause. -/
def Function.FirstRefusal (f : Function) (c : Context) (cause : Error) : Prop :=
  ∃ i n p, f.nodes[i]? = some n ∧ n.op = .input p ∧ c.Refuses p cause ∧
    ∀ (j : Nat) (m : Node) (q : Placeholder), j < i → f.nodes[j]? = some m → m.op = .input q →
      ∃ t, c.Binds q t

theorem Context.Refuses.ne_overflow (refuses : c.Refuses p e) : e ≠ .overflow := by
  cases refuses <;> exact nofun

/-- Some node computes more elements than can be counted, and every placeholder that is read before
it can be read. -/
def Function.OverflowsFirst (f : Function) (c : Context) : Prop :=
  ∃ i n, f.nodes[i]? = some n ∧ n.op.Computes ∧ ¬ n.ty.shape.Fits ∧
    ∀ (j : Nat) (m : Node) (q : Placeholder), j < i → f.nodes[j]? = some m → m.op = .input q →
      ∃ t, c.Binds q t

theorem Evaluates.binds {nodes : List Node}
    (evaluates : Evaluates μ.load μ.store.read nodes val) {j : Nat} {m : Node}
    (found : nodes[j]? = some m) (op : m.op = .input p) :
    ∃ t, μ.context.Binds p t ∧ val j = some (μ.store.read t) := by
  have yields := evaluates j m found
  rw [op] at yields
  generalize result : val j = r at yields
  cases yields with
  | input loaded =>
    obtain ⟨t, binds, rfl⟩ := Memory.load_eq_ok.1 loaded
    exact ⟨t, binds, rfl⟩
  | computed computes => exact computes.elim

theorem Evaluates.binds_sources (evaluates : Evaluates μ.load μ.store.read f.nodes val) :
    ∀ p ∈ f.sources, ∃ t, μ.context.Binds p t := by
  intro p source
  obtain ⟨i, n, found, op⟩ := Function.mem_sources.1 source
  obtain ⟨t, binds, -⟩ := evaluates.binds found op
  exact ⟨t, binds⟩

theorem StuckAt.binds {i : Nat} (stuck : StuckAt f μ i e val) {j : Nat}
    {m : Node} {q : Placeholder} (earlier : j < i) (there : f.nodes[j]? = some m)
    (input : m.op = .input q) : ∃ t, μ.context.Binds q t := by
  rw [← List.getElem?_take_of_lt earlier] at there
  obtain ⟨t, binds, -⟩ := stuck.settled.evaluates.binds there input
  exact ⟨t, binds⟩

namespace Interpreter

section

variable (lawful : f.Lawful declared μ.store) (good : μ.Lawful)

include lawful good

/-- A run that fails fails in its walk, and leaves the memory as it was. -/
theorem run_error (failed : run f μ = .error e μ') : walk f μ = .error e ∧ μ' = μ := by
  cases walked : walk f μ with
  | error cause =>
    rw [run_eq, walked] at failed
    cases failed
    exact ⟨rfl, rfl⟩
  | ok w =>
    -- The values are there, so leaving them succeeds.
    obtain ⟨val, evaluates, -⟩ := (walk_eq_ok lawful.topological).1 walked
    have unsaved : ¬ f.ReadsSave := fun readsSave => not_evaluates readsSave evaluates
    have bound : ∀ p ∈ f.sources, ∃ v, μ.load p = .ok v := fun p source =>
      Memory.exists_load_iff.2 (evaluates.binds_sources p source)
    obtain ⟨μ'', ran⟩ := (run_ok lawful good bound).2 ⟨unsaved, evaluates.fits lawful good⟩
    cases ran.symm.trans failed

variable (unsaved : ¬ f.ReadsSave)

include unsaved

/-- A failed run has stopped at a node, and the nodes before it have values. -/
theorem stuck_of_run_error (failed : run f μ = .error e μ') :
    ∃ i val, StuckAt f μ i e val := by
  obtain ⟨walked, -⟩ := run_error lawful good failed
  obtain ⟨val, settled⟩ | ⟨i, -, cause, val, stuck⟩ :=
    settled_or_stuck lawful good unsaved (Nat.le_refl _)
  · have evaluates := settled.evaluates
    rw [List.take_length] at evaluates
    have done : walk f μ = .ok (.upTo val f.nodes) :=
      (walk_eq_ok lawful.topological).2 ⟨val, evaluates, rfl⟩
    cases done.symm.trans walked
  · cases (walk_of_stuck lawful stuck).symm.trans walked
    exact ⟨i, val, stuck⟩

/-- A run stops the program exactly when a node computes too many elements before a placeholder
cannot be read. -/
theorem run_overflow_iff :
    (∃ μ', run f μ = .error .overflow μ') ↔ f.OverflowsFirst μ.context := by
  constructor
  · rintro ⟨μ', failed⟩
    obtain ⟨i, val, stuck⟩ := stuck_of_run_error lawful good unsaved failed
    obtain ⟨n, found, stops⟩ := stuck.stops
    generalize cause : Error.overflow = e at stops
    cases stops with
    | unread op failed =>
      exact ((Context.load_eq_error.1 (Memory.load_eq_error.1 failed)).ne_overflow cause.symm).elim
    | overflow computes unfit =>
      exact ⟨i, n, found, computes, unfit, fun j m q => stuck.binds⟩
  · rintro ⟨i, n, found, computes, unfit, bound⟩
    have inside := (List.getElem?_eq_some_iff.1 found).1
    obtain ⟨val, settled⟩ | ⟨j, before, cause, val, stuck⟩ :=
      settled_or_stuck lawful good unsaved inside
    · have gives := settled.gives i n (Nat.lt_succ_self i) found
      cases value : val i with
      | none =>
        rw [value] at gives
        cases gives.symm.trans (n.op.isSave_of_computes computes)
      | some v =>
        rw [value] at gives
        obtain ⟨-, wellFormed, type⟩ := gives
        exact (unfit (type ▸ wellFormed.fits)).elim
    · have walked := walk_of_stuck lawful stuck
      obtain ⟨m, there, stops⟩ := stuck.stops
      cases stops with
      | unread op failed =>
        obtain earlier | rfl := Nat.lt_or_eq_of_le (Nat.le_of_lt_succ before)
        · obtain ⟨v, loaded⟩ := Memory.exists_load_iff.2 (bound j m _ earlier there op)
          cases failed.symm.trans loaded
        · obtain rfl := Option.some.inj (found.symm.trans there)
          exact (op ▸ computes).elim
      | overflow => exact ⟨μ, by rw [run_eq, walked]⟩

/-- When no node reads a save, a failed run that has not stopped the program has the first refusal
as its cause. -/
theorem run_error_refusal (failed : run f μ = .error e μ') (other : e ≠ .overflow) :
    f.FirstRefusal μ.context e := by
  obtain ⟨i, val, stuck⟩ := stuck_of_run_error lawful good unsaved failed
  obtain ⟨n, found, stops⟩ := stuck.stops
  cases stops with
  | unread op failed =>
    exact ⟨i, n, _, found, op, Context.load_eq_error.1 (Memory.load_eq_error.1 failed),
      fun j m q => stuck.binds⟩
  | overflow => exact (other rfl).elim

/-- Unless the program stops, a run fails exactly when one of its inputs cannot be read. -/
theorem run_fails_iff (counted : ¬ f.OverflowsFirst μ.context) :
    (∃ e μ', run f μ = .error e μ') ↔ ∃ p ∈ f.sources, ∀ t, ¬ μ.context.Binds p t := by
  constructor
  · rintro ⟨e, μ', failed⟩
    have other : e ≠ .overflow := by
      rintro rfl
      exact counted ((run_overflow_iff lawful good unsaved).1 ⟨μ', failed⟩)
    obtain ⟨i, n, p, found, op, refuses, -⟩ :=
      run_error_refusal lawful good unsaved failed other
    refine ⟨p, Function.mem_sources.2 ⟨i, n, found, op⟩, fun t binds => ?_⟩
    cases (Context.load_eq_error.2 refuses).symm.trans (Context.load_eq_ok.2 binds)
  · rintro ⟨p, source, unbound⟩
    cases ran : run f μ with
    | error e μ' => exact ⟨e, μ', rfl⟩
    | ok u μ' =>
      obtain ⟨val, evaluates, -⟩ := (run_eq_ok lawful.topological).1 ran
      obtain ⟨t, binds⟩ := evaluates.binds_sources p source
      exact (unbound t binds).elim

end

end Interpreter

/-- A built-in backend, in some mode and under some settings, makes `exe` of the function. -/
def Function.CompilesTo (f : Function) (exe : Executable) : Prop :=
  ∃ mode, Interpreter.compile f mode = .ok exe ∨ ∃ config, Cpu.compile config f mode = .ok exe

theorem Cpu.infer_of_compile {config : Config} {mode : Mode} {exe : Executable}
    (compiled : Cpu.compile config f mode = .ok exe) : mode = .infer := by
  cases mode with
  | infer => rfl
  | train =>
    obtain ⟨plan, lowered, -⟩ := bind_eq_ok.1 compiled
    cases lowered

/-- Whatever built-in backend made the executable, it runs as the interpreter does. -/
theorem Function.CompilesTo.execute {exe : Executable} (compiled : f.CompilesTo exe)
    (lawful : f.Lawful declared μ.store) (good : μ.Lawful) :
    exe.execute μ = (Executable.interpreted f).execute μ := by
  obtain ⟨mode, made | ⟨config, made⟩⟩ := compiled
  · obtain ⟨u, -, same⟩ := bind_eq_ok.1 made
    rw [← Except.ok.inj same]
  · obtain rfl := Cpu.infer_of_compile made
    obtain ⟨plan, rfl, lowered, floats⟩ := Cpu.compile_eq_ok made
    obtain ⟨-, -, name, -⟩ := Plan.ofFunction_eq_ok lowered
    rw [Executable.execute, Executable.execute, state_adaptExcept, state_adaptExcept, name,
      Tape.run_eq_interpreter lawful good floats lowered]

theorem Executable.execute_interpreted_eq_error :
    (Executable.interpreted f).execute μ = .error e μ' ↔
      ∃ cause, Interpreter.run f μ = .error cause μ' ∧ e = cause.whileRunning f.name := by
  rw [Executable.execute, state_adaptExcept]
  cases Interpreter.run f μ with
  | ok u μ'' => simp
  | error cause μ'' => simp [and_comm, eq_comm]

theorem Executable.execute_interpreted_eq_overflow :
    (Executable.interpreted f).execute μ = .error .overflow μ' ↔
      Interpreter.run f μ = .error .overflow μ' := by
  rw [execute_interpreted_eq_error]
  constructor
  · rintro ⟨cause, ran, wrapped⟩
    obtain rfl := Error.whileRunning_eq_overflow.1 wrapped.symm
    exact ran
  · exact fun ran => ⟨_, ran, rfl⟩

theorem Executable.execute_interpreted_fails_iff :
    (∃ e μ', (Executable.interpreted f).execute μ = .error e μ') ↔
      ∃ e μ', Interpreter.run f μ = .error e μ' := by
  simp only [execute_interpreted_eq_error]
  constructor
  · rintro ⟨e, μ', cause, ran, -⟩
    exact ⟨cause, μ', ran⟩
  · rintro ⟨cause, μ', ran⟩
    exact ⟨_, μ', cause, ran, rfl⟩

/-- A function that was built and optimized in any way, compiled by a built-in backend, does
everything or nothing. If the CPU backend compiles it, the program stops exactly when a node
computes too many elements before a placeholder cannot be read. Otherwise it fails only for an input
that is unbound or bound to a tensor of another type; the error names the function, once, and the
first such input. -/
theorem execution_all_or_nothing {w : Workspace} (reached : w.Reachable) {f : Function}
    (member : f ∈ w.module.functions) {exe : Executable} (compiled : f.CompilesTo exe)
    {c : Context} (good : Memory.Lawful ⟨w.store, c⟩) :
    (∀ e μ, exe.execute ⟨w.store, c⟩ = .error e μ → μ = ⟨w.store, c⟩) ∧
    ∀ config mode tape, Cpu.compile config f mode = .ok tape →
      ((∃ μ, exe.execute ⟨w.store, c⟩ = .error .overflow μ) ↔ f.OverflowsFirst c) ∧
      (¬ f.OverflowsFirst c →
        ((∃ e μ, exe.execute ⟨w.store, c⟩ = .error e μ) ↔
          ∃ p ∈ f.sources, ∀ t, ¬ c.Binds p t) ∧
        ∀ e μ, exe.execute ⟨w.store, c⟩ = .error e μ →
          ∃ cause, e = .execution f.name cause ∧ f.FirstRefusal c cause) := by
  obtain ⟨-, lawful⟩ := reached.lawful.functions f member
  rw [compiled.execute lawful good]
  refine ⟨fun e μ failed => ?_, fun config mode tape lowered => ?_⟩
  · obtain ⟨cause, failed, -⟩ := Executable.execute_interpreted_eq_error.1 failed
    exact (Interpreter.run_error lawful good failed).2
  obtain rfl := Cpu.infer_of_compile lowered
  obtain ⟨plan, -, planned, -⟩ := Cpu.compile_eq_ok lowered
  have unsaved : ¬ f.ReadsSave := (Plan.ofFunction_ok lawful).1 ⟨plan, planned⟩
  have stops := Interpreter.run_overflow_iff lawful good unsaved
  refine ⟨?_, fun counted => ⟨?_, fun e μ failed => ?_⟩⟩
  · simp only [Executable.execute_interpreted_eq_overflow]
    exact stops
  · rw [Executable.execute_interpreted_fails_iff]
    exact Interpreter.run_fails_iff lawful good unsaved counted
  · obtain ⟨cause, ran, wrapped⟩ := Executable.execute_interpreted_eq_error.1 failed
    have other : cause ≠ .overflow := by
      rintro rfl
      exact counted (stops.1 ⟨μ, ran⟩)
    have refusal := Interpreter.run_error_refusal lawful good unsaved ran other
    have ⟨i, n, p, found, op, refuses, first⟩ := refusal
    exact ⟨cause, wrapped.trans (refuses.whileRunning f.name), refusal⟩

namespace Workspace.Shift

def unready : Context := ⟨[(target.id, handle)]⟩

theorem compiles : ∃ tape, Cpu.compile {} function .infer = .ok tape :=
  exists_of_isOk (by decide)

end Workspace.Shift

theorem execution_all_or_nothing_shift :
    ∃ tape cause, Cpu.compile {} Shift.function .infer = .ok tape ∧
      Shift.function.FirstRefusal Shift.unready cause ∧
      tape.execute ⟨Shift.workspace.store, Shift.unready⟩ =
        .error (.execution "shift" cause) ⟨Shift.workspace.store, Shift.unready⟩ := by
  obtain ⟨tape, compiled⟩ := Shift.compiles
  have good : Memory.Lawful ⟨Shift.workspace.store, Shift.unready⟩ := by
    refine Memory.lawful_of_entries fun entry member => ?_
    rw [List.mem_singleton.1 member]
    exact Shift.held
  obtain ⟨kept, fails⟩ := execution_all_or_nothing Shift.reachable Shift.member
    ⟨.infer, .inr ⟨{}, compiled⟩⟩ good
  obtain ⟨-, fails⟩ := fails {} .infer tape compiled
  have fits : Shift.function.Fits := by decide
  have counted : ¬ Shift.function.OverflowsFirst Shift.unready := by
    rintro ⟨i, n, found, -, unfit, -⟩
    exact unfit (fits n (List.mem_of_getElem? found))
  obtain ⟨failure, causes⟩ := fails counted
  obtain ⟨e, μ, failed⟩ := failure.2 ⟨Shift.source, by decide, fun t binds => nomatch binds.1⟩
  obtain rfl := kept e μ failed
  obtain ⟨cause, rfl, refusal⟩ := causes e _ failed
  exact ⟨tape, cause, compiled, refusal, failed⟩

namespace Workspace.Wide

-- A product of two matrices without elements that has more elements than words.

def tall : Placeholder := ⟨⟨⟨0⟩, 0⟩, "a", ⟨.float, .matrix 4294967296 0⟩, false⟩

def wide : Placeholder := ⟨⟨⟨0⟩, 1⟩, "b", ⟨.float, .matrix 0 4294967296⟩, false⟩

def source : Placeholder := ⟨⟨⟨0⟩, 2⟩, "x", ⟨.float, .vector 2⟩, false⟩

def target : Placeholder := ⟨⟨⟨0⟩, 3⟩, "y", ⟨.float, .vector 2⟩, false⟩

def actions : List Action :=
  [.declare .float tall.ty.shape "a" false, .declare .float wide.ty.shape "b" false,
    .declare .float (.vector 2) "x" false, .declare .float (.vector 2) "y" false,
    .create "wide", .build "wide" (.input tall), .build "wide" (.input wide),
    .build "wide" (.matmul "product" 0 1), .build "wide" (.input source),
    .build "wide" (.save "saved" 3 target)]

def workspace : Workspace :=
  actions.foldl perform ⟨⟨#[⟨tall.ty, #[]⟩, ⟨wide.ty, #[]⟩]⟩, .empty ⟨0⟩⟩

def function : Function := workspace.module.functions.headD (.empty "" ⟨0⟩)

def bindings : Context := ⟨[(tall.id, ⟨0, tall.ty⟩), (wide.id, ⟨1, wide.ty⟩)]⟩

theorem reachable : workspace.Reachable :=
  (Reachable.start _ _).run ⟨trivial, trivial, trivial, trivial, trivial, fun _ => by decide,
    fun _ => by decide, trivial, fun _ => by decide, fun _ => by decide, trivial⟩

theorem member : function ∈ workspace.module.functions := by decide

theorem good : Memory.Lawful ⟨workspace.store, bindings⟩ := by
  refine Memory.lawful_of_entries fun entry member => ?_
  rcases List.mem_cons.1 member with rfl | member
  · exact ⟨⟨tall.ty, #[]⟩, rfl, rfl, ⟨by decide, by decide, by decide, nofun⟩⟩
  · rw [List.mem_singleton.1 member]
    exact ⟨⟨wide.ty, #[]⟩, rfl, rfl, ⟨by decide, by decide, by decide, nofun⟩⟩

end Workspace.Wide

/-- The third input is unbound, but the program stops before it is read, on both backends. -/
theorem product_stops_before_refusal :
    Wide.workspace.Reachable ∧ Wide.function ∈ Wide.workspace.module.functions ∧
    Memory.Lawful ⟨Wide.workspace.store, Wide.bindings⟩ ∧
    Wide.source ∈ Wide.function.sources ∧ (∀ t, ¬ Wide.bindings.Binds Wide.source t) ∧
    ∃ plan, Cpu.compile {} Wide.function .infer = .ok (.tape plan 4096) ∧
      ∀ exe ∈ [Executable.tape plan 4096, .interpreted Wide.function],
        exe.execute ⟨Wide.workspace.store, Wide.bindings⟩ =
          .error .overflow ⟨Wide.workspace.store, Wide.bindings⟩ := by
  refine ⟨Wide.reachable, Wide.member, Wide.good, by decide, fun t binds => (nomatch binds.1), _, rfl,
    fun exe member => ?_⟩
  rcases List.mem_cons.1 member with rfl | member
  · rfl
  · rw [List.mem_singleton.1 member]
    rfl

end TensorGraph
