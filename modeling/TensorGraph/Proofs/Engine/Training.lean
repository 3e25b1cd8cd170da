import TensorGraph.Proofs.Engine.Resuming
import TensorGraph.Proofs.Engine.Session
import TensorGraph.Proofs.Optimize.Carrying
import TensorGraph.Proofs.Run.Keeping

/-!
Compiling for training. Training fuses nothing, but compiling for inference leaves the fused
function in the module, even if the backend then fails, and a later compile for training starts
from there. So what is compiled for training has a fused node exactly when an earlier compile of
the same function for inference left one.
-/

namespace TensorGraph

open Workspace

/-- An action of whoever builds the module, as against one of the optimizer. -/
def Action.isBuilding : Action → Bool
  | .declare .. | .create _ | .erase _ | .build .. => true
  | .apply .. | .optimize .. => false

namespace Module

variable {m : Module} {name other : String} {f g : Function}

theorem function_eq_ok_iff :
    m.function name = .ok f ↔ m.functions.find? (·.name = name) = some f := by
  unfold Module.function
  cases m.functions.find? (·.name = name) <;> simp

theorem name_of_function (found : m.function name = .ok f) : f.name = name := by
  simpa using List.find?_some (function_eq_ok_iff.1 found)

theorem find?_setFunction (same : g.name = name) :
    (m.setFunction name g).functions.find? (·.name = other) =
      (m.functions.find? (·.name = other)).map fun x => if x.name = name then g else x := by
  have sought : (fun x : Function => decide (x.name = other)) ∘
      (fun x => if x.name = name then g else x) = fun x => decide (x.name = other) := by
    funext x
    simp only [Function.comp]
    split <;> simp_all
  rw [setFunction, List.find?_map, sought]

theorem function_setFunction (found : m.function name = .ok f) (same : g.name = name) :
    (m.setFunction name g).function name = .ok g := by
  rw [function_eq_ok_iff, find?_setFunction same, function_eq_ok_iff.1 found, Option.map_some,
    if_pos (name_of_function found)]

theorem function_of_setFunction (same : g.name = name) (apart : other ≠ name)
    (found : (m.setFunction name g).function other = .ok f) : m.function other = .ok f := by
  rw [function_eq_ok_iff, find?_setFunction same] at found
  obtain ⟨x, source, replaced⟩ := Option.map_eq_some_iff.1 found
  have own : x.name = other := by simpa using List.find?_some source
  rw [if_neg (own ▸ apart)] at replaced
  rw [function_eq_ok_iff, source, replaced]

theorem build_after {call : BuilderCall} (found : m.function name = .ok f) :
    stateAfter (Module.build name call.run) m =
      m.setFunction name (stateAfter call.run f) := by
  simp only [stateAfter, Module.build, found]
  cases call.run f <;> rfl

end Module

theorem BuilderCall.after_apart (call : BuilderCall) (f : Function) :
    stateAfter call.run f = f ∨
      ∃ n : Node, n.kind ≠ .addRelu ∧ stateAfter call.run f = { f with nodes := f.nodes ++ [n] } := by
  have appends := call.appends_apart f
  unfold Appends at appends
  unfold stateAfter
  split at appends
  next built =>
    rw [built]
    exact .inr appends.2
  next failed =>
    rw [failed]
    exact .inl appends

theorem Function.optimize_name {f g : Function} {mode : Mode} {counts : PassCounts} {σ τ : Store}
    (made : f.optimize mode σ = .ok (g, counts) τ) : g.name = f.name := by
  obtain ⟨-, υ, -, made⟩ := state_bind_eq_ok.1 made
  obtain ⟨⟨h, folded⟩, υ', folds, made⟩ := state_bind_eq_ok.1 made
  obtain ⟨⟨nodes, total⟩, υ'', -, same⟩ := state_bind_eq_ok.1 folds
  cases same
  cases mode <;> cases made <;> rfl

namespace Workspace

variable {w : Workspace} {a : Action} {name : String} {f g : Function}

theorem perform_store (builds : a.isBuilding = true) : (w.perform a).store = w.store := by
  cases a <;> first | rfl | cases builds

/-- `g` is the function `name` of the workspace, with at most one node more, not a fused one. -/
def Extends (w : Workspace) (name : String) (g : Function) : Prop :=
  ∃ f, w.module.function name = .ok f ∧
    (g = f ∨ ∃ n : Node, n.kind ≠ .addRelu ∧ g = { f with nodes := f.nodes ++ [n] })

theorem Extends.refl (found : w.module.function name = .ok g) : w.Extends name g :=
  ⟨g, found, .inl rfl⟩

theorem building_origin (builds : a.isBuilding = true)
    (found : (w.perform a).module.function name = .ok g) :
    (g.nodes = [] ∧ ∀ f, w.module.function name ≠ .ok f) ∨ w.Extends name g := by
  cases a with
  | declare kind shape name' trainable =>
    have same : (w.perform (.declare kind shape name' trainable)).module.functions =
        w.module.functions := by
      rcases w.module.createPlaceholder_after kind shape name' trainable with same | ⟨-, same⟩ <;>
        simp only [perform, same]
    rw [Module.function_eq_ok_iff, same, ← Module.function_eq_ok_iff] at found
    exact .inr (.refl found)
  | create name' =>
    rcases w.module.createFunction_after name' with same | same
    · simp only [perform, same] at found
      exact .inr (.refl found)
    · simp only [perform, same, Module.function_eq_ok_iff, List.find?_append] at found
      rcases Option.or_eq_some_iff.1 found with old | ⟨none, new⟩
      · exact .inr (.refl (Module.function_eq_ok_iff.2 old))
      · rw [List.mem_singleton.1 (List.mem_of_find?_eq_some new)]
        refine .inl ⟨rfl, fun f there => ?_⟩
        cases none.symm.trans (Module.function_eq_ok_iff.1 there)
  | erase name' =>
    rcases w.module.eraseFunction_after name' with same | same
    · simp only [perform, same] at found
      exact .inr (.refl found)
    · simp only [perform, same, Module.function_eq_ok_iff, List.find?_filter] at found
      obtain ⟨different, own⟩ : g.name ≠ name' ∧ g.name = name := by
        simpa using List.find?_some found
      have sought : (fun x : Function => decide (decide (x.name ≠ name') = true ∧
          decide (x.name = name) = true)) = fun x => decide (x.name = name) := by
        funext x
        by_cases named : x.name = name
        · simp [named, ← own, different]
        · simp [named]
      rw [sought] at found
      exact .inr (.refl (Module.function_eq_ok_iff.2 found))
  | build name' call =>
    cases old : w.module.function name' with
    | error err =>
      simp only [perform, stateAfter, Module.build, old] at found
      exact .inr (.refl found)
    | ok f =>
      rw [perform, Module.build_after old] at found
      have kept : (stateAfter call.run f).name = name' := by
        have own : f.name = name' := Module.name_of_function old
        rcases call.after_apart f with same | ⟨n, -, same⟩ <;> rw [same, own]
      by_cases own : name = name'
      · subst own
        cases (Module.function_setFunction old kept).symm.trans found
        exact .inr ⟨f, old, call.after_apart f⟩
      · exact .inr (.refl (Module.function_of_setFunction kept own found))
  | apply name' pass => cases builds
  | optimize name' mode => cases builds

theorem optimizing_origin {name' : String} {mode : Mode}
    (found : (w.perform (.optimize name' mode)).module.function name = .ok g) :
    w.Extends name g ∨ name = name' ∧ ∃ f counts τ, w.module.function name = .ok f ∧
      f.optimize mode w.store = .ok (g, counts) τ := by
  simp only [perform, rewrite] at found
  split at found
  next => exact .inl (.refl found)
  next f old =>
    split at found
    next g' counts τ made =>
      have kept : g'.name = name' :=
        (Function.optimize_name made).trans (Module.name_of_function old)
      by_cases own : name = name'
      · subst own
        cases (Module.function_setFunction old kept).symm.trans found
        exact .inr ⟨rfl, f, counts, τ, old, made⟩
      · exact .inl (.refl (Module.function_of_setFunction kept own found))
    next => exact .inl (.refl found)

end Workspace

namespace Session

variable {s : Session} {op : Operation} {ops : List Operation} {name : String} {f : Function}

def workspace (s : Session) : Workspace := ⟨s.memory.store, s.engine.module⟩

/-- The module changes by building alone, tensors keep their types, and a backend that a caller
supplies makes executables that keep tensors good. -/
def Allows (s : Session) : Operation → Prop
  | .changeModule m => ∃ a : Action, a.isBuilding = true ∧ s.workspace.Admits a ∧
      m = (s.workspace.perform a).module
  | .changeMemory μ => s.memory.store.Evolves μ.store
  | .install backend _ => backend.Keeps
  | _ => True

/-- Each operation is allowed where it is performed. -/
def Orderly (s : Session) (ops : List Operation) : Prop :=
  ∀ k op, ops[k]? = some op → (s.after (ops.take k)).Allows op

/-- The module and its tensors are as building and optimizing leave them, and runs keep them so. -/
structure Good (s : Session) : Prop where
  reached : s.workspace.Reachable
  engine : s.engine.Keeps
  backend : s.engine.backend.Keeps

/-- A compile optimizes the module's function, whether or not the backend then fails. -/
theorem workspace_compile (s : Session) (mode : Mode) (name : String) (clearOthers : Bool) :
    (stateAfter (Operation.compile mode name clearOthers).perform s).workspace =
      s.workspace.perform (.optimize name mode) := by
  simp only [stateAfter, Operation.perform, within, workspace, Workspace.perform,
    Workspace.rewrite]
  rw [Engine.compile_cleared, Engine.compile_eq]
  cases s.engine.module.function name with
  | error err => rfl
  | ok f =>
    dsimp only
    cases f.optimize mode s.memory.store with
    | error err τ => rfl
    | ok result τ =>
      dsimp only
      cases s.engine.backend.compile result.1 mode <;> rfl

theorem workspace_build (s : Session) {a : Action} (builds : a.isBuilding = true) :
    (stateAfter (Operation.changeModule (s.workspace.perform a).module).perform s).workspace =
      s.workspace.perform a :=
  congrArg (Workspace.mk · (s.workspace.perform a).module)
    (perform_store builds : _ = s.memory.store).symm

theorem workspace_within {ε σ : Type} {part : Session → σ} {put : σ → Session → Session}
    {wrap : ε → ExportFailure} {work : Session → EStateM ε σ Unit} (store : σ → Store)
    (kept : ∀ t s, (put t s).workspace = { s.workspace with store := store t }) (s : Session) :
    (stateAfter (within part put wrap work) s).workspace =
      { s.workspace with store := store (stateAfter (work s) (part s)) } := by
  unfold stateAfter within
  cases work s (part s) <;> exact kept _ s

/-- What an operation does to the module and to the tensors. -/
theorem workspace_after (good : s.Good) (allowed : s.Allows op) :
    (∃ σ, s.workspace.store.Evolves σ ∧
      (stateAfter op.perform s).workspace = { s.workspace with store := σ }) ∨
    ∃ a : Action, s.workspace.Admits a ∧ (stateAfter op.perform s).workspace = s.workspace.perform a ∧
      (a.isBuilding = true ∨ ∃ mode name clearOthers,
        op = .compile mode name clearOthers ∧ a = .optimize name mode) := by
  cases op with
  | install backend owned => exact .inl ⟨_, .refl _, rfl⟩
  | setBackend kind => exact .inl ⟨_, .refl _, rfl⟩
  | compile mode name clearOthers =>
    exact .inr ⟨.optimize name mode, trivial, s.workspace_compile mode name clearOthers,
      .inr ⟨mode, name, clearOthers, rfl, rfl⟩⟩
  | save mode name directory network =>
    refine .inl ⟨_, .refl _, ?_⟩
    unfold stateAfter Operation.perform within
    dsimp only
    cases s.engine.save s.memory.store mode name directory network s.files <;> rfl
  | run =>
    refine .inl ⟨_, Engine.keeps_run good.engine s.memory, ?_⟩
    exact workspace_within (fun μ : Memory => μ.store) (fun _ _ => rfl) s
  | runNamed name =>
    refine .inl ⟨_, Engine.keeps_runNamed good.engine name s.memory, ?_⟩
    exact workspace_within (fun μ : Memory => μ.store) (fun _ _ => rfl) s
  | runBatch iterations cursor placeholders inputs =>
    refine .inl ⟨_, Engine.keeps_runBatch good.engine iterations placeholders inputs
      ⟨s.memory, cursor⟩, ?_⟩
    exact workspace_within (fun b : BatchState => b.memory.store) (fun _ _ => rfl) s
  | changeModule m =>
    obtain ⟨a, builds, admits, rfl⟩ := allowed
    exact .inr ⟨a, admits, s.workspace_build builds, .inl builds⟩
  | changeMemory μ => exact .inl ⟨μ.store, allowed, rfl⟩

theorem Good.step (good : s.Good) (allowed : s.Allows op) : (stateAfter op.perform s).Good := by
  constructor
  case reached =>
    rcases workspace_after good allowed with ⟨σ, evolves, same⟩ | ⟨a, admits, same, -⟩
    · rw [same]
      exact .tensors good.reached evolves
    · rw [same]
      exact .act good.reached admits
  case engine =>
    have kept : ∀ name exe, (s.base op).get? name = some exe → exe.Keeps := by
      intro name exe registered
      unfold base at registered
      split at registered
      · cases registered
      · exact good.engine name exe registered
    intro name exe registered
    rcases (s.accounted op).registry with ⟨name', exe', compiles, registry⟩ | ⟨-, registry⟩
    · obtain ⟨mode, clearOthers, t, -, -, f, g, counts, τ, -, -, made⟩ := compiles
      rw [registry, Table.get?_insert] at registered
      split at registered
      · cases registered
        exact good.backend g mode exe made
      · exact kept name exe registered
    · rw [registry] at registered
      exact kept name exe registered
  case backend =>
    have stays (keeps : op.installs = false) :
        (stateAfter op.perform s).engine.backend.Keeps := by
      rw [(s.accounted op).backend keeps]
      exact good.backend
    cases op with
    | install backend owned => exact allowed
    | setBackend kind => exact Backend.keeps_ofKind kind
    | _ => exact stays rfl

theorem Orderly.of_concat (orderly : s.Orderly (ops ++ [op])) :
    s.Orderly ops ∧ (s.after ops).Allows op := by
  constructor
  · intro k other found
    have inside := (List.getElem?_eq_some_iff.1 found).1
    have allowed := orderly k other (by rw [List.getElem?_append_left inside, found])
    rwa [List.take_append_of_le_length (Nat.le_of_lt inside)] at allowed
  · have allowed := orderly ops.length op List.getElem?_concat_length
    rwa [List.take_left' rfl] at allowed

theorem Good.after (good : s.Good) (orderly : s.Orderly ops) : (s.after ops).Good := by
  induction ops using List.reverseRecOn with
  | nil => exact good
  | append_singleton ops op ih =>
    obtain ⟨earlier, allowed⟩ := orderly.of_concat
    rw [after_concat]
    exact (ih earlier).step allowed

/-- The `j`-th operation compiled `name` for inference, with success or not, and left a fused node
in the module's function, which has been there ever since. -/
structure FusedAt (s : Session) (ops : List Operation) (name : String) (j : Nat) : Prop where
  compiled : ∃ clearOthers, ops[j]? = some (.compile .infer name clearOthers)
  fused : ∃ f, (s.after (ops.take (j + 1))).engine.module.function name = .ok f ∧ ¬ f.Unfused
  since : ∀ i, j < i → i ≤ ops.length →
    ∃ f, (s.after (ops.take i)).engine.module.function name = .ok f

theorem FusedAt.lt {j : Nat} (fused : s.FusedAt ops name j) : j < ops.length := by
  obtain ⟨clearOthers, found⟩ := fused.compiled
  exact (List.getElem?_eq_some_iff.1 found).1

theorem fusedAt_concat {j : Nat} (inside : j < ops.length)
    (present : (s.after (ops ++ [op])).engine.module.function name = .ok f) :
    s.FusedAt (ops ++ [op]) name j ↔ s.FusedAt ops name j := by
  have earlier {i : Nat} (le : i ≤ ops.length) : (ops ++ [op]).take i = ops.take i :=
    List.take_append_of_le_length le
  constructor
  · rintro ⟨⟨clearOthers, found⟩, fused, since⟩
    rw [List.getElem?_append_left inside] at found
    rw [earlier inside] at fused
    refine ⟨⟨clearOthers, found⟩, fused, fun i after le => ?_⟩
    rw [← earlier le]
    exact since i after (by simp; omega)
  · rintro ⟨⟨clearOthers, found⟩, fused, since⟩
    refine ⟨⟨clearOthers, by rw [List.getElem?_append_left inside, found]⟩, ?_, ?_⟩
    · rwa [earlier inside]
    · intro i after le
      rcases Nat.lt_or_ge ops.length i with last | old
      · rw [List.take_of_length_le (by simp; omega)]
        exact ⟨f, present⟩
      · rw [earlier old]
        exact since i after old

theorem fusedAt_last {clearOthers : Bool} (op_eq : op = .compile .infer name clearOthers)
    (present : (s.after (ops ++ [op])).engine.module.function name = .ok f) (fused : ¬ f.Unfused) :
    s.FusedAt (ops ++ [op]) name ops.length := by
  have all : (ops ++ [op]).take (ops.length + 1) = ops ++ [op] :=
    List.take_of_length_le (by simp)
  refine ⟨⟨clearOthers, by rw [List.getElem?_concat_length, op_eq]⟩, ⟨f, ?_, fused⟩, ?_⟩
  · rw [all, present]
  · intro i after le
    rw [List.take_of_length_le (by simp at le ⊢; omega)]
    exact ⟨f, present⟩

theorem function_origin {g : Function} (good : s.Good) (allowed : s.Allows op)
    (found : (stateAfter op.perform s).engine.module.function name = .ok g) :
    (g.nodes = [] ∧ ∀ f, s.engine.module.function name ≠ .ok f) ∨ s.workspace.Extends name g ∨
      ∃ mode clearOthers f counts τ, op = .compile mode name clearOthers ∧
        s.engine.module.function name = .ok f ∧
        f.optimize mode s.memory.store = .ok (g, counts) τ := by
  have there : (stateAfter op.perform s).workspace.module.function name = .ok g := found
  rcases workspace_after good allowed with ⟨σ, -, same⟩ | ⟨a, -, same, kind⟩
  · rw [same] at there
    exact .inr (.inl (.refl there))
  · rw [same] at there
    rcases kind with builds | ⟨mode, name', clearOthers, rfl, rfl⟩
    · exact (building_origin builds there).imp_right .inl
    · rcases optimizing_origin there with old | ⟨rfl, f, counts, τ, old, made⟩
      · exact .inr (.inl old)
      · exact .inr (.inr ⟨mode, clearOthers, f, counts, τ, rfl, old, made⟩)

theorem fusedAt_cases {j : Nat}
    (present : (s.after (ops ++ [op])).engine.module.function name = .ok f)
    (fused : s.FusedAt (ops ++ [op]) name j) : ¬ f.Unfused ∨ s.FusedAt ops name j := by
  rcases Nat.lt_or_ge j ops.length with inside | last
  · exact .inr ((fusedAt_concat inside present).1 fused)
  · obtain ⟨h, there, left⟩ := fused.fused
    rw [List.take_of_length_le (by simp; omega)] at there
    cases present.symm.trans there
    exact .inl left

/-- The step of the main induction, for a function that was there before as `g`. -/
theorem fused_iff_concat {g : Function}
    (present : (s.after (ops ++ [op])).engine.module.function name = .ok f)
    (before : ¬ g.Unfused ↔ ∃ j, s.FusedAt ops name j)
    (origin : ¬ f.Unfused → ¬ g.Unfused ∨ ∃ clearOthers, op = .compile .infer name clearOthers)
    (stays : ¬ g.Unfused → ¬ f.Unfused) :
    ¬ f.Unfused ↔ ∃ j, s.FusedAt (ops ++ [op]) name j := by
  constructor
  · intro fused
    rcases origin fused with old | ⟨clearOthers, compiled⟩
    · obtain ⟨j, earlier⟩ := before.1 old
      exact ⟨j, (fusedAt_concat earlier.lt present).2 earlier⟩
    · exact ⟨ops.length, fusedAt_last compiled present fused⟩
  · rintro ⟨j, fused⟩
    rcases fusedAt_cases present fused with left | earlier
    · exact left
    · exact stays (before.2 ⟨j, earlier⟩)

/-- A function of the module has a fused node exactly when a compile for inference left one, and
then it has one that stays. -/
theorem fused_iff (good : s.Good) (fresh : s.engine.module.functions = [])
    (orderly : s.Orderly ops) (found : (s.after ops).engine.module.function name = .ok f) :
    (¬ f.Unfused ↔ ∃ j, s.FusedAt ops name j) ∧ (¬ f.Unfused → f.HoldsFused) := by
  induction ops using List.reverseRecOn generalizing f with
  | nil =>
    rw [after, List.foldl_nil, Module.function_eq_ok_iff, fresh] at found
    cases found
  | append_singleton ops op ih =>
    obtain ⟨earlier, allowed⟩ := orderly.of_concat
    have before := good.after earlier
    have here := found
    rw [after_concat] at here
    have lawful {w : Session} (good : w.Good) {g : Function}
        (old : w.engine.module.function name = .ok g) :
        g.Lawful w.engine.module.placeholders w.memory.store :=
      (good.reached.lawful.functions g (Module.function_eq_ok old)).2
    rcases function_origin before allowed here with
      ⟨empty, none⟩ | ⟨g, old, step⟩ | ⟨mode, clearOthers, g, counts, τ, rfl, old, made⟩
    · have unfused : f.Unfused := fun n member => by simp [empty] at member
      refine ⟨iff_of_false (not_not_intro unfused) ?_, fun fused => (fused unfused).elim⟩
      rintro ⟨j, fused⟩
      rcases fusedAt_cases found fused with left | there
      · exact left unfused
      · obtain ⟨g, old⟩ := there.since ops.length there.lt (Nat.le_refl _)
        rw [List.take_length] at old
        exact none g old
    · obtain ⟨iff, holds⟩ := ih earlier old
      rcases step with rfl | ⟨n, apart, rfl⟩
      · exact ⟨fused_iff_concat found iff .inl id, holds⟩
      · have same : Function.Unfused { g with nodes := g.nodes ++ [n] } ↔ g.Unfused := by
          simp [Function.Unfused, or_imp, forall_and, apart]
        rw [same]
        refine ⟨?_, fun fused => ?_⟩
        · rw [← same]
          exact fused_iff_concat found iff (fun fused => .inl (same.not.1 fused)) same.not.2
        · exact (holds fused).append (lawful before old)
            (lawful (good.after orderly) found) rfl
    · obtain ⟨iff, holds⟩ := ih earlier old
      have apart := before.reached.lawful.apart
      refine ⟨fused_iff_concat found iff (fun fused => ?_) fun fused => ?_, fun fused => ?_⟩
      · cases mode with
        | infer => exact .inr ⟨clearOthers, rfl⟩
        | train =>
          exact .inl fun unfused => fused (((lawful before old).optimize_train apart made).1 unfused)
      · exact (holds fused).optimize (lawful before old) apart made
      · obtain ⟨-, nothing, allLive, -⟩ := (lawful before old).optimize_leaves apart made
        exact Function.holdsFused_of_optimized nothing allLive fused

theorem good_new (kind : BackendKind) (id : ModuleId) (μ : Memory) (fs : FileSystem) :
    Good ⟨.new kind id, μ, fs⟩ :=
  ⟨.start id μ.store, nofun, Backend.keeps_ofKind kind⟩

end Session

open Session in
/-- What a compile for training registers, after any operations on a new engine whose module is
built by builders. The artifact is made from the module's function optimized for training, which
keeps every live operation apart from the others unless it is folded. It has no fused node exactly
when no earlier compile of the same function for inference, successful or not, left one there. -/
theorem train_compile_unfused_iff (kind : BackendKind) (id : ModuleId) (μ : Memory)
    (fs : FileSystem) (ops : List Operation)
    (orderly : Session.Orderly ⟨.new kind id, μ, fs⟩ ops) (name : String) (clearOthers : Bool)
    {t : Session} (compiled : (Operation.compile .train name clearOthers).perform
      (Session.after ⟨.new kind id, μ, fs⟩ ops) = .ok () t) :
    let s : Session := ⟨.new kind id, μ, fs⟩
    let now := s.after ops
    ∃ f g counts τ exe, now.engine.module.function name = .ok f ∧
      f.optimize .train now.memory.store = .ok (g, counts) τ ∧
      now.engine.backend.compile g .train = .ok exe ∧ t.engine.registry.get? name = some exe ∧
      (∀ kind, now.engine.backend = .ofKind kind → exe = .interpreted g) ∧
      f.KeptApart now.memory.store g ∧
      (g.Unfused ↔ ∀ j, ¬ s.FusedAt ops name j) := by
  intro s now
  have good : s.Good := good_new kind id μ fs
  obtain ⟨exe, compiles⟩ := succeeds_iff.1 ⟨.train, clearOthers, t, rfl, compiled⟩
  have registered := get?_of_compiles compiles
  obtain ⟨mode, clearOthers', t', same, -, f, g, counts, τ, found, optimized, made⟩ := compiles
  cases same
  rw [stateAfter, compiled] at registered
  have reached := (good.after orderly).reached
  have lawful := (reached.lawful.functions f (Module.function_eq_ok found)).2
  obtain ⟨unfused, apart⟩ := lawful.optimize_train reached.lawful.apart optimized
  obtain ⟨fused, holds⟩ := fused_iff good rfl orderly found
  refine ⟨f, g, counts, τ, exe, found, optimized, made, registered, fun kind own => ?_, apart, ?_⟩
  · rw [own] at made
    cases kind with
    | interpreter =>
      obtain ⟨-, -, same⟩ := bind_eq_ok.1 made
      cases same
      rfl
    | cpu => cases made
  · rw [← not_exists, ← fused, not_not]
    refine ⟨fun apart => ?_, unfused⟩
    by_contra left
    exact (holds left).optimize lawful reached.lawful.apart optimized apart

/-- The operations that build a module, and others after them. -/
def Operation.building : Workspace → List Action → List Operation → List Operation
  | _, [], rest => rest
  | w, a :: actions, rest =>
    .changeModule (w.perform a).module :: building (w.perform a) actions rest

namespace Session

variable {s : Session} {op : Operation} {ops : List Operation}

theorem orderly_cons (allowed : s.Allows op) (rest : (stateAfter op.perform s).Orderly ops) :
    s.Orderly (op :: ops) := by
  intro k other found
  cases k with
  | zero =>
    cases found
    exact allowed
  | succ k => exact rest k other found

theorem orderly_building {w : Workspace} {actions : List Action} {rest : List Operation}
    (admits : w.AdmitsAll actions) (builds : ∀ a ∈ actions, a.isBuilding = true)
    (later : ∀ s : Session, s.Orderly rest) (same : s.workspace = w) :
    s.Orderly (Operation.building w actions rest) := by
  induction actions generalizing s w with
  | nil => exact later s
  | cons a actions ih =>
    subst same
    have own := builds a List.mem_cons_self
    refine orderly_cons ⟨a, own, admits.1, rfl⟩ (ih admits.2 ?_ (s.workspace_build own))
    exact fun b member => builds b (List.mem_cons_of_mem a member)

theorem mem_building {w : Workspace} {actions : List Action} {rest : List Operation}
    (member : op ∈ Operation.building w actions rest) :
    op ∈ rest ∨ ∃ m, op = .changeModule m := by
  induction actions generalizing w with
  | nil => exact .inl member
  | cons a actions ih =>
    rcases List.mem_cons.1 member with rfl | later
    · exact .inr ⟨_, rfl⟩
    · exact ih later

end Session

namespace Workspace.Spare

-- The sum without its dead reader.

def building : List Action :=
  [.declare .float (.vector 2) "x" false, .declare .float (.vector 2) "y" false,
    .declare .float (.vector 2) "out" false, .create "f", .build "f" (.input left),
    .build "f" (.input right), .build "f" (.binary "sum" .add 0 1),
    .build "f" (.unary "cut" .relu 2), .build "f" (.save "saved" 3 target)]

def session : Session := ⟨.new .interpreter ⟨0⟩, ⟨.empty, .empty⟩, .empty⟩

/-- The module is built, and then the function is compiled any number of times. -/
def history (modes : List Mode) : List Operation :=
  Operation.building ⟨.empty, .empty ⟨0⟩⟩ building (modes.map (.compile · "f" false))

theorem orderly (modes : List Mode) : session.Orderly (history modes) := by
  refine Session.orderly_building ⟨trivial, trivial, trivial, trivial, fun _ => by decide,
    fun _ => by decide, trivial, trivial, fun _ => by decide, trivial⟩ (by decide) ?_ rfl
  intro s k op found
  obtain ⟨mode, -, rfl⟩ := List.mem_map.1 (List.mem_of_getElem? found)
  trivial

end Workspace.Spare

theorem train_compile_unfused_spare :
    Spare.session.Orderly (Spare.history []) ∧
      ∃ t g, (Operation.compile .train "f" false).perform
          (Spare.session.after (Spare.history [])) = .ok () t ∧
        t.engine.registry.get? "f" = some (.interpreted g) ∧ g.Unfused := by
  obtain ⟨f, g, counts, τ, exe, -, -, -, registered, artifact, -, unfused⟩ :=
    train_compile_unfused_iff .interpreter ⟨0⟩ ⟨.empty, .empty⟩ .empty (Spare.history [])
      (Spare.orderly []) "f" false rfl
  obtain rfl := artifact .interpreter rfl
  refine ⟨Spare.orderly [], _, g, rfl, registered, unfused.2 fun j fused => ?_⟩
  obtain ⟨clearOthers, found⟩ := fused.compiled
  rcases Session.mem_building (List.mem_of_getElem? found) with member | ⟨m, other⟩
  · cases member
  · cases other

/-- After a compile for inference, the artifact of the same function compiled for training does
both steps of the cut-off sum in one. -/
theorem train_after_infer_is_fused :
    Spare.session.Orderly (Spare.history [.infer]) ∧
      (∃ f, (Spare.session.after (Spare.history [])).engine.module.function "f" = .ok f ∧
        f.nodes.map Node.kind =
          [.input, .input, .binary .add, .unary .relu, .save]) ∧
      ∃ t g, (Operation.compile .train "f" false).perform
          (Spare.session.after (Spare.history [.infer])) = .ok () t ∧
        t.engine.registry.get? "f" = some (.interpreted g) ∧
        g.nodes.map Node.kind = [.input, .input, .addRelu, .save] :=
  ⟨Spare.orderly [.infer], ⟨_, rfl, by decide⟩, _, _, rfl, rfl, by decide⟩

end TensorGraph
