import TensorGraph.Engine.Batch
import TensorGraph.Proofs.Engine.Lookup
import TensorGraph.Proofs.History

/-!
Histories of an engine. Whatever is done to an engine and its module, and whether it succeeds or
not, a function is registered as long as nothing clears the registry after a compile of it that
succeeded, and what is registered is what the installed backend made of it the last time.
-/

namespace TensorGraph

/-- An engine with all that its operations read and change. -/
structure Session where
  engine : Engine
  memory : Memory
  files : FileSystem

/-- What a caller may do with an engine, and in between. -/
inductive Operation where
  | install (backend : Backend) (owned : Bool)
  | setBackend (kind : BackendKind)
  | compile (mode : Mode) (name : String) (clearOthers : Bool)
  | save (mode : Mode) (name : String) (directory : Path) (network : String)
  | run
  | runNamed (name : String)
  | runBatch (iterations cursor : Nat) (placeholders : List Placeholder) (inputs : List Tensor)
  /-- Anything done to the module, erasing and recreating functions included. -/
  | changeModule (module : Module)
  /-- Anything done to tensors and bindings. -/
  | changeMemory (memory : Memory)

/-- Work on a part of the session. -/
def Session.within {ε σ : Type} (part : Session → σ) (put : σ → Session → Session)
    (wrap : ε → ExportFailure) (work : Session → EStateM ε σ Unit) :
    EStateM ExportFailure Session Unit := fun s =>
  match work s (part s) with
  | .ok _ t => .ok () (put t s)
  | .error e t => .error (wrap e) (put t s)

namespace Operation

def perform : Operation → EStateM ExportFailure Session Unit
  | install backend owned =>
    modify fun s => { s with engine := s.engine.installBackend backend owned }
  | setBackend kind => modify fun s => { s with engine := s.engine.setBackend kind }
  | compile mode name clearOthers =>
    Session.within (fun s => (s.engine, s.memory.store))
      (fun (e, σ) s => { s with engine := e, memory := { s.memory with store := σ } }) .error
      fun _ => Engine.compile mode name clearOthers
  | save mode name directory network =>
    Session.within (·.files) (fun fs s => { s with files := fs }) id
      fun s => s.engine.save s.memory.store mode name directory network
  | run =>
    Session.within (·.memory) (fun μ s => { s with memory := μ }) .error fun s => s.engine.run
  | runNamed name =>
    Session.within (·.memory) (fun μ s => { s with memory := μ }) .error
      fun s => s.engine.runNamed name
  | runBatch iterations cursor placeholders inputs =>
    Session.within (fun s => BatchState.mk s.memory cursor)
      (fun b s => { s with memory := b.memory }) .error
      fun s => s.engine.runBatch iterations placeholders inputs
  | changeModule m => modify fun s => { s with engine := { s.engine with module := m } }
  | changeMemory μ => modify fun s => { s with memory := μ }

def installs : Operation → Bool
  | install .. | setBackend _ => true
  | _ => false

/-- Whether the operation drops every compiled function, even if it then fails. -/
def clears : Operation → Bool
  | install .. | setBackend _ => true
  | compile _ _ clearOthers => clearOthers
  | _ => false

theorem installs_of_keeps {op : Operation} (keeps : op.clears = false) : op.installs = false := by
  cases op <;> first | rfl | cases keeps

end Operation

/-- The session after some operations, each of which may have failed. -/
def Session.after (s : Session) (ops : List Operation) : Session :=
  ops.foldl (fun s op => stateAfter op.perform s) s

namespace Engine

/-- What the installed backend returns for the optimized function. -/
def Returns (e : Engine) (σ : Store) (mode : Mode) (name : String) (exe : Executable) : Prop :=
  ∃ f g counts τ, e.module.function name = .ok f ∧ f.optimize mode σ = .ok (g, counts) τ ∧
    e.backend.compile g mode = .ok exe

/-- The registry that a compile starts from. -/
def cleared (e : Engine) (clearOthers : Bool) : Registry :=
  if clearOthers then .empty else e.registry

theorem compile_eq (e : Engine) (σ : Store) (mode : Mode) (name : String) :
    compile mode name false (e, σ) =
      match e.module.function name with
      | .error err => .error err (e, σ)
      | .ok f =>
        match f.optimize mode σ with
        | .error err τ => .error (err.whileCompiling name) (e, τ)
        | .ok (g, _) τ =>
          let module := e.module.setFunction name g
          match e.backend.compile g mode with
          | .error err => .error (err.whileCompiling name) ({ e with module }, τ)
          | .ok exe => .ok () ({ e with module, registry := e.registry.insert name exe }, τ) := by
  have start : compile mode name false (e, σ) = (do
      let f ← optimizeFunction name mode
      let compiled ← compileWith (← get).1.backend name f mode
      modify fun (e, σ) => ({ e with registry := e.registry.insert name compiled }, σ) :
        Compiling Unit) (e, σ) := rfl
  rw [start, state_bind, optimizeFunction]
  cases e.module.function name with
  | error err => rfl
  | ok f =>
    dsimp only
    cases f.optimize mode σ with
    | error err τ => rfl
    | ok result τ =>
      dsimp only
      rw [state_bind, state_get]
      dsimp only
      rw [state_bind, state_check, compileWith]
      cases e.backend.compile result.1 mode <;> rfl

theorem compile_cleared (e : Engine) (σ : Store) (mode : Mode) (name : String)
    (clearOthers : Bool) :
    compile mode name clearOthers (e, σ) =
      compile mode name false ({ e with registry := e.cleared clearOthers }, σ) := by
  cases clearOthers <;> rfl

/-- A compile registers what the backend returned, or fails and registers nothing. -/
theorem compile_cases (e : Engine) (σ : Store) (mode : Mode) (name : String)
    (clearOthers : Bool) :
    (∃ exe e' τ, e.Returns σ mode name exe ∧
      compile mode name clearOthers (e, σ) = .ok () (e', τ) ∧
      e'.registry = (e.cleared clearOthers).insert name exe ∧ e'.backend = e.backend) ∨
    ∃ err e' τ, compile mode name clearOthers (e, σ) = .error err (e', τ) ∧
      e'.registry = e.cleared clearOthers ∧ e'.backend = e.backend := by
  rw [compile_cleared, compile_eq]
  split
  next err missing => exact .inr ⟨_, _, _, rfl, rfl, rfl⟩
  next f found =>
    split
    next err τ failed => exact .inr ⟨_, _, _, rfl, rfl, rfl⟩
    next g counts τ optimized =>
      dsimp only
      split
      next err failed => exact .inr ⟨_, _, _, rfl, rfl, rfl⟩
      next exe made =>
        exact .inl ⟨exe, _, _, ⟨f, g, counts, τ, found, optimized, made⟩, rfl, rfl, rfl⟩

end Engine

namespace Session

variable {s : Session} {op : Operation} {ops : List Operation} {name : String}
  {exe exe' : Executable} {k : Nat}

theorem within_engine {ε σ : Type} {part : Session → σ} {put : σ → Session → Session}
    {wrap : ε → ExportFailure} {work : Session → EStateM ε σ Unit}
    (kept : ∀ t s, (put t s).engine = s.engine) (s : Session) :
    (stateAfter (within part put wrap work) s).engine = s.engine := by
  unfold stateAfter within
  cases work s (part s) <;> exact kept _ s

/-- A compile of `name` that succeeds. -/
def Succeeds (s : Session) (op : Operation) (name : String) : Prop :=
  ∃ mode clearOthers t, op = .compile mode name clearOthers ∧ op.perform s = .ok () t

/-- A compile of `name` that succeeds, and what the installed backend then returned. -/
def Compiles (s : Session) (op : Operation) (name : String) (exe : Executable) : Prop :=
  ∃ mode clearOthers t, op = .compile mode name clearOthers ∧ op.perform s = .ok () t ∧
    s.engine.Returns s.memory.store mode name exe

/-- The registry an operation starts from. -/
def base (s : Session) (op : Operation) : Registry :=
  if op.clears then .empty else s.engine.registry

/-- What one operation may do: it registers what a compile returned, or registers nothing, and
the backend stays unless one is installed. -/
structure Accounted (s : Session) (op : Operation) : Prop where
  registry : (∃ name exe, s.Compiles op name exe ∧
      (stateAfter op.perform s).engine.registry = (s.base op).insert name exe) ∨
    (∀ name exe, ¬ s.Compiles op name exe) ∧
      (stateAfter op.perform s).engine.registry = s.base op
  backend : op.installs = false → (stateAfter op.perform s).engine.backend = s.engine.backend

theorem accounted_of_no_compile (noCompile : ∀ mode name clearOthers,
      op ≠ .compile mode name clearOthers)
    (registry : (stateAfter op.perform s).engine.registry = s.base op)
    (backend : op.installs = false →
      (stateAfter op.perform s).engine.backend = s.engine.backend) : s.Accounted op :=
  ⟨.inr ⟨fun name _ ⟨mode, clearOthers, _, same, _⟩ => noCompile mode name clearOthers same,
    registry⟩, backend⟩

theorem accounted_of_same (noCompile : ∀ mode name clearOthers,
      op ≠ .compile mode name clearOthers) (keeps : op.clears = false)
    (same : (stateAfter op.perform s).engine = s.engine) : s.Accounted op := by
  refine accounted_of_no_compile noCompile ?_ fun _ => by rw [same]
  rw [same, base, keeps]
  rfl

theorem compile_cases (s : Session) (mode : Mode) (name : String) (clearOthers : Bool) :
    let op : Operation := .compile mode name clearOthers
    ∃ t : Session, t.engine.backend = s.engine.backend ∧
      ((∃ exe, op.perform s = .ok () t ∧ s.engine.Returns s.memory.store mode name exe ∧
          t.engine.registry = (s.base op).insert name exe) ∨
        ∃ err, op.perform s = .error err t ∧ t.engine.registry = s.base op) := by
  rcases s.engine.compile_cases s.memory.store mode name clearOthers with
    ⟨exe, e, τ, returns, ran, registry, backend⟩ | ⟨err, e, τ, ran, registry, backend⟩
  · refine ⟨{ s with engine := e, memory := { s.memory with store := τ } }, backend,
      .inl ⟨exe, ?_, returns, registry⟩⟩
    simp only [Operation.perform, within, ran]
  · refine ⟨{ s with engine := e, memory := { s.memory with store := τ } }, backend,
      .inr ⟨.error err, ?_, registry⟩⟩
    simp only [Operation.perform, within, ran]

theorem succeeds_iff : s.Succeeds op name ↔ ∃ exe, s.Compiles op name exe := by
  constructor
  · rintro ⟨mode, clearOthers, t, rfl, performed⟩
    obtain ⟨t', -, ⟨exe, performed', returns, -⟩ | ⟨err, failed, -⟩⟩ :=
      s.compile_cases mode name clearOthers
    · exact ⟨exe, mode, clearOthers, t', rfl, performed', returns⟩
    · cases performed.symm.trans failed
  · rintro ⟨exe, mode, clearOthers, t, same, performed, -⟩
    exact ⟨mode, clearOthers, t, same, performed⟩

theorem accounted_compile (s : Session) (mode : Mode) (name : String) (clearOthers : Bool) :
    s.Accounted (.compile mode name clearOthers) := by
  obtain ⟨t, backend, ⟨exe, performed, returns, registry⟩ | ⟨err, performed, registry⟩⟩ :=
    s.compile_cases mode name clearOthers
  · have compiles : s.Compiles (.compile mode name clearOthers) name exe :=
      ⟨mode, clearOthers, t, rfl, performed, returns⟩
    refine ⟨.inl ⟨name, exe, compiles, ?_⟩, fun _ => ?_⟩
    · rw [stateAfter, performed, registry]
    · rw [stateAfter, performed, backend]
  · refine ⟨.inr ⟨?_, ?_⟩, fun _ => ?_⟩
    · rintro name' exe ⟨mode', clearOthers', t', -, succeeded, -⟩
      cases performed.symm.trans succeeded
    · rw [stateAfter, performed, registry]
    · rw [stateAfter, performed, backend]

theorem accounted (s : Session) (op : Operation) : s.Accounted op := by
  cases op with
  | install backend owned => exact accounted_of_no_compile nofun rfl nofun
  | setBackend kind => exact accounted_of_no_compile nofun rfl nofun
  | compile mode name clearOthers => exact s.accounted_compile mode name clearOthers
  | changeModule m => exact accounted_of_no_compile nofun rfl fun _ => rfl
  | changeMemory μ => exact accounted_of_no_compile nofun rfl fun _ => rfl
  | save | run | runNamed | runBatch =>
    refine accounted_of_same nofun rfl ?_
    apply within_engine
    intro t s
    rfl

theorem after_concat (s : Session) (ops : List Operation) (op : Operation) :
    s.after (ops ++ [op]) = stateAfter op.perform (s.after ops) := by
  rw [after, List.foldl_append]
  rfl

theorem Compiles.unique (first : s.Compiles op name exe) {name' : String}
    (second : s.Compiles op name' exe') : name = name' ∧ exe = exe' := by
  obtain ⟨mode, clearOthers, -, rfl, -, f, g, counts, τ, found, optimized, made⟩ := first
  obtain ⟨mode', clearOthers', -, same, -, f', g', counts', τ', found', optimized', made'⟩ := second
  cases same
  cases found.symm.trans found'
  cases optimized.symm.trans optimized'
  cases made.symm.trans made'
  exact ⟨rfl, rfl⟩

theorem get?_of_compiles (compiles : s.Compiles op name exe) :
    (stateAfter op.perform s).engine.registry.get? name = some exe := by
  rcases (s.accounted op).registry with ⟨name', exe', compiles', registry⟩ | ⟨none, -⟩
  · obtain ⟨rfl, rfl⟩ := compiles.unique compiles'
    rw [registry, Table.get?_insert_self]
  · exact (none name exe compiles).elim

theorem get?_of_not_compiles (none : ∀ exe, ¬ s.Compiles op name exe) :
    (stateAfter op.perform s).engine.registry.get? name = (s.base op).get? name := by
  rcases (s.accounted op).registry with ⟨name', exe, compiles, registry⟩ | ⟨-, registry⟩
  · have different : name ≠ name' := fun same => none exe (same ▸ compiles)
    rw [registry, Table.get?_insert_ne _ different]
  · rw [registry]

/-- The `k`-th operation compiles `name` with success, and this is what the backend installed
at that time returned. -/
def CompiledAt (s : Session) (ops : List Operation) (name : String) (k : Nat) (exe : Executable) :
    Prop :=
  ∃ op, ops[k]? = some op ∧ (s.after (ops.take k)).Compiles op name exe

/-- An operation after the `k`-th drops every compiled function. -/
def ClearedAfter (ops : List Operation) (k : Nat) : Prop :=
  ∃ (j : Nat) (op : Operation), k < j ∧ ops[j]? = some op ∧ op.clears = true

/-- The `k`-th operation is the last compile of `name` that succeeded, and nothing cleared the
registry after it. -/
structure Latest (s : Session) (ops : List Operation) (name : String) (k : Nat)
    (exe : Executable) : Prop where
  compiled : s.CompiledAt ops name k exe
  kept : ¬ ClearedAfter ops k
  last : ∀ j exe', k < j → ¬ s.CompiledAt ops name j exe'

theorem CompiledAt.lt (compiled : s.CompiledAt ops name k exe) : k < ops.length := by
  obtain ⟨op, found, -⟩ := compiled
  exact (List.getElem?_eq_some_iff.1 found).1

theorem compiledAt_concat : s.CompiledAt (ops ++ [op]) name k exe ↔
    s.CompiledAt ops name k exe ∨ k = ops.length ∧ (s.after ops).Compiles op name exe := by
  constructor
  · rintro ⟨own, found, compiles⟩
    rcases getElem?_concat found with old | ⟨rfl, rfl⟩
    · rw [List.take_append_of_le_length
        (Nat.le_of_lt (List.getElem?_eq_some_iff.1 old).1)] at compiles
      exact .inl ⟨own, old, compiles⟩
    · rw [List.take_left' rfl] at compiles
      exact .inr ⟨rfl, compiles⟩
  · rintro (⟨own, found, compiles⟩ | ⟨rfl, compiles⟩)
    · have inside := (List.getElem?_eq_some_iff.1 found).1
      refine ⟨own, by rw [List.getElem?_append_left inside, found], ?_⟩
      rwa [List.take_append_of_le_length (Nat.le_of_lt inside)]
    · refine ⟨op, List.getElem?_concat_length, ?_⟩
      rwa [List.take_left' rfl]

theorem clearedAfter_concat (inside : k < ops.length) :
    ClearedAfter (ops ++ [op]) k ↔ ClearedAfter ops k ∨ op.clears = true := by
  constructor
  · rintro ⟨j, other, later, found, clears⟩
    rcases getElem?_concat found with old | ⟨-, rfl⟩
    · exact .inl ⟨j, other, later, old, clears⟩
    · exact .inr clears
  · rintro (⟨j, other, later, found, clears⟩ | clears)
    · refine ⟨j, other, later, ?_, clears⟩
      rw [List.getElem?_append_left (List.getElem?_eq_some_iff.1 found).1, found]
    · exact ⟨ops.length, op, inside, List.getElem?_concat_length, clears⟩

theorem not_clearedAfter_last : ¬ ClearedAfter (ops ++ [op]) ops.length := by
  rintro ⟨j, other, later, found, -⟩
  have inside := (List.getElem?_eq_some_iff.1 found).1
  simp at inside
  omega

theorem latest_last (compiles : (s.after ops).Compiles op name exe) :
    s.Latest (ops ++ [op]) name k exe' ↔ k = ops.length ∧ exe' = exe := by
  have here : s.CompiledAt (ops ++ [op]) name ops.length exe :=
    compiledAt_concat.2 (.inr ⟨rfl, compiles⟩)
  constructor
  · intro latest
    rcases compiledAt_concat.1 latest.compiled with old | ⟨same, compiles'⟩
    · exact (latest.last ops.length exe old.lt here).elim
    · exact ⟨same, (compiles'.unique compiles).2⟩
  · rintro ⟨rfl, rfl⟩
    refine ⟨here, not_clearedAfter_last, fun j exe later compiled => ?_⟩
    rcases compiledAt_concat.1 compiled with old | ⟨rfl, -⟩
    · exact Nat.lt_asymm later old.lt
    · exact Nat.lt_irrefl _ later

/-- Any other operation keeps the latest compile, unless it drops everything. -/
theorem latest_concat (none : ∀ exe, ¬ (s.after ops).Compiles op name exe) :
    s.Latest (ops ++ [op]) name k exe ↔ op.clears = false ∧ s.Latest ops name k exe := by
  have same {j : Nat} {exe : Executable} :
      s.CompiledAt (ops ++ [op]) name j exe ↔ s.CompiledAt ops name j exe := by
    rw [compiledAt_concat]
    exact or_iff_left fun new => none exe new.2
  constructor
  · rintro ⟨compiled, kept, last⟩
    rw [same] at compiled
    rw [clearedAfter_concat compiled.lt, not_or, Bool.not_eq_true] at kept
    refine ⟨kept.2, compiled, kept.1, fun j exe' later compiled' => ?_⟩
    exact last j exe' later (same.2 compiled')
  · rintro ⟨keeps, compiled, kept, last⟩
    refine ⟨same.2 compiled, ?_, fun j exe' later compiled' => ?_⟩
    · rw [clearedAfter_concat compiled.lt, keeps]
      simpa using kept
    · exact last j exe' later (same.1 compiled')

/-- A function's entry is what the latest compile returned. -/
theorem get?_eq_some_iff (fresh : s.engine.registry = .empty) :
    (s.after ops).engine.registry.get? name = some exe ↔ ∃ k, s.Latest ops name k exe := by
  induction ops using List.reverseRecOn generalizing exe with
  | nil =>
    have nothing : (s.after []).engine.registry.get? name = none := by
      rw [after, List.foldl_nil, fresh, Table.get?_empty]
    rw [nothing]
    refine iff_of_false nofun ?_
    rintro ⟨k, latest⟩
    exact Nat.not_lt_zero k latest.compiled.lt
  | append_singleton ops op ih =>
    rw [after_concat]
    by_cases compiles : ∃ exe', (s.after ops).Compiles op name exe'
    · obtain ⟨exe', compiles⟩ := compiles
      simp only [get?_of_compiles compiles, latest_last compiles, Option.some.injEq,
        exists_eq_left, eq_comm]
    · have none : ∀ exe', ¬ (s.after ops).Compiles op name exe' := not_exists.1 compiles
      simp only [latest_concat none, exists_and_left, ← ih, get?_of_not_compiles none, base]
      cases op.clears <;> simp

theorem exists_latest (compiled : s.CompiledAt ops name k exe) (kept : ¬ ClearedAfter ops k) :
    ∃ j exe', s.Latest ops name j exe' := by
  generalize left : ops.length - k = n
  induction n using Nat.strongRecOn generalizing k exe with
  | ind n ih =>
    by_cases later : ∃ j exe', k < j ∧ s.CompiledAt ops name j exe'
    · obtain ⟨j, exe', after, compiled'⟩ := later
      have inside := compiled'.lt
      refine ih (ops.length - j) (by omega) compiled' ?_ rfl
      rintro ⟨i, op, beyond, found, clears⟩
      exact kept ⟨i, op, Nat.lt_trans after beyond, found, clears⟩
    · refine ⟨k, exe, compiled, kept, fun j exe' after compiled' => ?_⟩
      exact later ⟨j, exe', after, compiled'⟩

theorem after_append (s : Session) (first rest : List Operation) :
    s.after (first ++ rest) = (s.after first).after rest := List.foldl_append

theorem backend_after (none : ∀ op ∈ ops, op.installs = false) :
    (s.after ops).engine.backend = s.engine.backend := by
  induction ops using List.reverseRecOn with
  | nil => rfl
  | append_singleton ops op ih =>
    rw [after_concat, ((s.after ops).accounted op).backend (none op (by simp))]
    exact ih fun other member => none other (List.mem_append_left _ member)

theorem backend_kept (compiled : s.CompiledAt ops name k exe) (kept : ¬ ClearedAfter ops k) :
    (s.after ops).engine.backend = (s.after (ops.take k)).engine.backend := by
  have split : s.after ops = (s.after (ops.take k)).after (ops.drop k) := by
    rw [← after_append, List.take_append_drop]
  rw [split]
  refine backend_after fun op member => ?_
  obtain ⟨i, found⟩ := List.mem_iff_getElem?.1 member
  rw [List.getElem?_drop] at found
  obtain ⟨own, there, mode, clearOthers, t, same, -⟩ := compiled
  cases i with
  | zero =>
    rw [Nat.add_zero, there] at found
    rw [← Option.some.inj found, same]
    rfl
  | succ i =>
    refine Operation.installs_of_keeps (Bool.eq_false_iff.2 fun clears => kept ?_)
    exact ⟨k + (i + 1), op, by omega, found, clears⟩

theorem distinct_after (fresh : s.engine.registry = .empty) :
    (s.after ops).engine.registry.Distinct := by
  induction ops using List.reverseRecOn with
  | nil =>
    rw [after, List.foldl_nil, fresh]
    exact Table.distinct_empty
  | append_singleton ops op ih =>
    have start : ((s.after ops).base op).Distinct := by
      unfold base
      split
      · exact Table.distinct_empty
      · exact ih
    rw [after_concat]
    rcases ((s.after ops).accounted op).registry with ⟨name, exe, -, registry⟩ | ⟨-, registry⟩
    · rw [registry]
      exact start.insert name exe
    · rw [registry]
      exact start

end Session

open Session in
/-- What is registered after any operations on a new engine, succeeding or failing. A name is
registered exactly when a compile of it succeeded and nothing cleared the registry after it.
Its entry is what the backend returned for the latest such compile, and that backend is still
the installed one. Any other operation leaves the registry as it is, unless it clears it. The
names are listed in order, and without a name the only entry is meant. -/
theorem registry_contents (kind : BackendKind) (id : ModuleId) (μ : Memory) (fs : FileSystem)
    (ops : List Operation) :
    let s : Session := ⟨.new kind id, μ, fs⟩
    let e := (s.after ops).engine
    (∀ name, name ∈ e.registry.names ↔ ∃ (k : Nat) (op : Operation), ops[k]? = some op ∧
      (s.after (ops.take k)).Succeeds op name ∧ ¬ ClearedAfter ops k) ∧
    (∀ name exe, e.registry.lookup name = .ok exe ↔ ∃ k, s.Latest ops name k exe ∧
      e.backend = (s.after (ops.take k)).engine.backend) ∧
    (∀ op, op.clears = false → (∀ name, ¬ (s.after ops).Succeeds op name) →
      (stateAfter op.perform (s.after ops)).engine.registry = e.registry) ∧
    e.registry.names.Pairwise (· < ·) ∧
    (e.registry.names = [] → e.registry.lookupSole = .error (.noSuchFunction "")) ∧
    (∀ name, e.registry.names = [name] → e.registry.lookupSole = e.registry.lookup name) ∧
    (2 ≤ e.registry.names.length →
      e.registry.lookupSole = .error (.ambiguousFunction e.registry.names)) := by
  intro s e
  have fresh : s.engine.registry = .empty := rfl
  refine ⟨fun name => ?_, fun name exe => ?_, fun op keeps fails => ?_,
    Registry.names_sorted (distinct_after fresh), Registry.lookupSole_of_none,
    fun name => Registry.lookupSole_of_one, Registry.lookupSole_of_several⟩
  · rw [Registry.mem_names]
    constructor
    · rintro ⟨exe, registered⟩
      obtain ⟨k, latest⟩ := (get?_eq_some_iff fresh).1 registered
      obtain ⟨op, found, compiles⟩ := latest.compiled
      exact ⟨k, op, found, succeeds_iff.2 ⟨exe, compiles⟩, latest.kept⟩
    · rintro ⟨k, op, found, succeeds, kept⟩
      obtain ⟨exe, compiles⟩ := succeeds_iff.1 succeeds
      obtain ⟨j, exe', latest⟩ := exists_latest ⟨op, found, compiles⟩ kept
      exact ⟨exe', (get?_eq_some_iff fresh).2 ⟨j, latest⟩⟩
  · rw [Registry.lookup_eq_ok, get?_eq_some_iff fresh]
    constructor
    · rintro ⟨k, latest⟩
      exact ⟨k, latest, backend_kept latest.compiled latest.kept⟩
    · rintro ⟨k, latest, -⟩
      exact ⟨k, latest⟩
  · rcases ((s.after ops).accounted op).registry with ⟨name, exe, compiles, -⟩ | ⟨-, registry⟩
    · exact (fails name (succeeds_iff.2 ⟨exe, compiles⟩)).elim
    · rw [registry, base, keeps]
      rfl

end TensorGraph
