import TensorGraph.Proofs.Engine.Lookup
import TensorGraph.Proofs.Engine.Resuming
import TensorGraph.Proofs.History
import TensorGraph.Proofs.Run.Delivery
import TensorGraph.Proofs.Tensor.Rows

/-!
Runs keep tensors good. Whatever is bound, and whether a run succeeds or fails, a handle that
names a well-formed cell of its type still does afterwards: cells are added, and overwriting
never changes a cell's type. Good bindings stay good too, since only new cells are bound. No law
about the function is needed.
-/

namespace TensorGraph

namespace Store

variable {σ τ υ : Store}

theorem Evolves.refl (σ : Store) : σ.Evolves σ := fun _ held => held

theorem Evolves.trans (first : σ.Evolves τ) (second : τ.Evolves υ) : σ.Evolves υ :=
  fun t held => second t (first t held)

/-- Overwriting is harmless even through a handle of the wrong type, since a cell is overwritten
by elements of its own kind. -/
theorem evolves_overwrite {t : Tensor} {v : Value} {data : Array Binary64}
    (made : (σ.read t).overwrite data = .ok v) : σ.Evolves (σ.write t v) := by
  intro u held
  by_cases shared : t.address = u.address
  · obtain ⟨w, found, type, wellFormed⟩ := held
    have stored : σ.read t = w := read_of_holds (by rw [shared, found])
    rw [stored] at made
    have kept := (Value.overwrite_eq_ok.1 made).2
    have bound := (Array.getElem?_eq_some_iff.1 found).1
    refine ⟨v, by simp [write, shared, bound], ?_, Value.wellFormed_of_overwrite wellFormed made⟩
    rw [kept, ← type]
  · obtain ⟨w, found, rest⟩ := held
    exact ⟨w, by rw [getElem?_write_ne shared, found], rest⟩

end Store

theorem Tensor.evolves_update (t : Tensor) (data : Array Binary64) (σ : Store) :
    σ.Evolves (stateAfter (t.update data) σ) := by
  rw [stateAfter, update_eq]
  cases made : (σ.read t).overwrite data with
  | ok v => exact Store.evolves_overwrite made
  | error e => exact .refl σ

theorem Tensor.Makes.evolves {x : StoreM Tensor} (makes : Makes x) (σ : Store) :
    σ.Evolves (stateAfter x σ) := by
  rw [stateAfter]
  rcases makes σ with ⟨v, -, allocates⟩ | ⟨e, fails⟩
  · rw [allocates]
    exact (σ.grows_allocate v).evolves
  · rw [fails]
    exact .refl σ

variable {μ μ' ν : Memory}

theorem Memory.Lawful.evolve (good : μ.Lawful) {τ : Store} (evolves : μ.store.Evolves τ) :
    Memory.Lawful ⟨τ, μ.context⟩ :=
  fun id t found => evolves t (good id t found)

/-- From the one memory to the other, good handles and good bindings stay good. -/
structure Memory.Sustains (μ ν : Memory) : Prop where
  evolves : μ.store.Evolves ν.store
  lawful : μ.Lawful → ν.Lawful

namespace Memory.Sustains

theorem refl (μ : Memory) : μ.Sustains μ := ⟨.refl μ.store, id⟩

theorem trans (first : μ.Sustains μ') (second : μ'.Sustains ν) : μ.Sustains ν :=
  ⟨first.evolves.trans second.evolves, second.lawful ∘ first.lawful⟩

theorem store {τ : Store} (evolves : μ.store.Evolves τ) : μ.Sustains ⟨τ, μ.context⟩ :=
  ⟨evolves, fun good => good.evolve evolves⟩

theorem bindNew {v : Value} (wellFormed : v.WellFormed) (p : Placeholder) :
    μ.Sustains ⟨(μ.store.allocate v).2, μ.context.insert p.id (μ.store.allocate v).1⟩ :=
  ⟨(μ.store.grows_allocate v).evolves, fun good => good.bindNew wellFormed p⟩

end Memory.Sustains

/-- Every good handle stays good, however the run ends. -/
def Run.Keeps {α : Type} (x : Run α) : Prop :=
  ∀ μ : Memory, μ.store.Evolves (stateAfter x μ).store

/-- Good bindings stay good as well. -/
def Run.Sustains {α : Type} (x : Run α) : Prop := ∀ μ : Memory, μ.Sustains (stateAfter x μ)

/-- As the runs of the built-in backends do. One that a caller supplied can do no other through
the tensor operations, which add cells and overwrite them. -/
def Executable.Keeps (exe : Executable) : Prop := Run.Keeps exe.execute

theorem stateAfter_adaptExcept {α ε ε' σ : Type} (x : EStateM ε σ α) (g : ε → ε') (s : σ) :
    stateAfter (x.adaptExcept g) s = stateAfter x s := by
  rw [stateAfter, state_adaptExcept, stateAfter]
  cases x s <;> rfl

namespace Run

variable {α β : Type} {x : Run α}

theorem Keeps.of_ok (keeps : Keeps x) {a : α} (ran : x μ = .ok a μ') :
    μ.store.Evolves μ'.store := by
  have kept := keeps μ
  rwa [stateAfter, ran] at kept

theorem Keeps.of_error (keeps : Keeps x) {e : Error} (ran : x μ = .error e μ') :
    μ.store.Evolves μ'.store := by
  have kept := keeps μ
  rwa [stateAfter, ran] at kept

theorem Keeps.adaptExcept (keeps : Keeps x) (g : Error → Error) : Keeps (x.adaptExcept g) := by
  intro μ
  rw [stateAfter_adaptExcept]
  exact keeps μ

theorem Sustains.keeps (sustains : Sustains x) : Keeps x := fun μ => (sustains μ).evolves

theorem Sustains.of_ok (sustains : Sustains x) {a : α} (ran : x μ = .ok a μ') :
    μ.Sustains μ' := by
  have sustained := sustains μ
  rwa [stateAfter, ran] at sustained

theorem Sustains.of_error (sustains : Sustains x) {e : Error} (ran : x μ = .error e μ') :
    μ.Sustains μ' := by
  have sustained := sustains μ
  rwa [stateAfter, ran] at sustained

theorem Sustains.adaptExcept (sustains : Sustains x) (g : Error → Error) :
    Sustains (x.adaptExcept g) := by
  intro μ
  rw [stateAfter_adaptExcept]
  exact sustains μ

theorem Sustains.bind (first : Sustains x) {f : α → Run β} (rest : ∀ a, Sustains (f a)) :
    Sustains (x >>= f) := by
  intro μ
  rw [stateAfter, state_bind]
  cases ran : x μ with
  | ok a μ' => exact (first.of_ok ran).trans (rest a μ')
  | error e μ' => exact first.of_error ran

theorem sustains_check_bind {check : Except Error α} {f : α → Run β}
    (rest : ∀ a, check = .ok a → Sustains (f a)) : Sustains (liftM check >>= f) := by
  intro μ
  rw [stateAfter, state_bind, state_check]
  cases checked : check with
  | ok a => exact rest a checked μ
  | error e => exact .refl μ

theorem sustains_get : Sustains (get : Run Memory) := fun μ => .refl μ

theorem sustains_forM {xs : List α} {f : α → Run Unit} (each : ∀ a, Sustains (f a)) :
    Sustains (xs.forM f) := by
  induction xs with
  | nil => exact fun μ => .refl μ
  | cons a rest ih => exact (each a).bind fun _ => ih

theorem Sustains.discard (sustains : Sustains x) : Sustains (discard x : Run Unit) :=
  sustains.bind fun _ μ => .refl μ

theorem sustains_store {x : StoreM α} (evolves : ∀ σ : Store, σ.Evolves (stateAfter x σ)) :
    Sustains (liftM x : Run α) := by
  intro μ
  have after := evolves μ.store
  rw [stateAfter, store_eq]
  rw [stateAfter] at after
  cases ran : x μ.store with
  | ok a τ =>
    rw [ran] at after
    exact .store after
  | error e τ =>
    rw [ran] at after
    exact .store after

theorem sustains_update (t : Tensor) (data : Array Binary64) :
    Sustains (liftM (t.update data) : Run Unit) :=
  sustains_store (t.evolves_update data)

theorem sustains_copyFrom (t source : Tensor) : Sustains (liftM (t.copyFrom source) : Run Unit) := by
  refine sustains_store fun σ => ?_
  rw [stateAfter, Tensor.copyFrom_eq]
  cases t.ty.expectEq source.ty with
  | error e => exact .refl σ
  | ok u =>
    dsimp only
    by_cases shared : t.sharesStorage source
    · rw [if_pos shared]
      exact .refl σ
    · rw [if_neg shared]
      exact t.evolves_update _ σ

/-- A tensor may be bound as soon as it is made. -/
theorem Sustains.bindMade {made : StoreM Tensor} (makes : Tensor.Makes made) (p : Placeholder) :
    Sustains (do bindTo p.id (← made)) := by
  intro μ
  rw [stateAfter, state_bind, store_eq]
  rcases makes μ.store with ⟨v, wellFormed, allocates⟩ | ⟨e, fails⟩
  · rw [allocates]
    exact .bindNew wellFormed p
  · rw [fails]
    exact .refl μ

theorem sustains_deliver (p : Placeholder) (v : Value) : Sustains (deliver p v) := by
  refine sustains_get.bind fun μ => ?_
  split
  next t bound => exact sustains_check_bind fun _ _ => sustains_update t v.data
  next => exact sustains_check_bind fun w made =>
    .bindMade (.new (Value.wellFormed_of_ofData made)) p

theorem sustains_deliverElements (p : Placeholder) (data : Array Binary64) :
    Sustains (deliverElements p data) := by
  refine sustains_get.bind fun μ => ?_
  split
  next t bound => exact sustains_update t data
  next => exact sustains_check_bind fun w made =>
    .bindMade (.new (Value.wellFormed_of_ofData made)) p

theorem sustains_allocate (p : Placeholder) : Sustains (allocate p) := by
  refine sustains_get.bind fun μ => ?_
  split
  next t bound => exact fun μ => .refl μ
  next => exact sustains_check_bind fun v made μ => .bindNew (Value.wellFormed_of_zeros made) p

theorem sustains_allocateAll (m : Module) : Sustains (allocateAll m) :=
  sustains_forM fun p => (sustains_allocate p).discard

theorem sustains_bindRows (inputs : List (Placeholder × Tensor)) (width cursor : Nat) :
    Sustains (Batch.bindRows inputs width cursor) :=
  sustains_forM fun entry =>
    .bindMade (.compute fun made => Value.wellFormed_of_rowsWrapping made) entry.1

end Run

namespace Executable

theorem sustains_interpreted (f : Function) : Run.Sustains (interpreted f).execute := by
  refine Run.Sustains.adaptExcept (Run.sustains_get.bind fun μ => ?_) _
  exact Run.sustains_check_bind fun w _ => Run.sustains_forM fun entry =>
    Run.sustains_deliver entry.1 entry.2

theorem sustains_tape (plan : Plan) (threshold : Nat) :
    Run.Sustains (tape plan threshold).execute := by
  refine Run.Sustains.adaptExcept (Run.sustains_get.bind fun μ => ?_) _
  exact Run.sustains_check_bind fun s _ => Run.sustains_forM fun entry =>
    Run.sustains_deliverElements entry.1 entry.2

theorem keeps_interpreted (f : Function) : (interpreted f).Keeps := (sustains_interpreted f).keeps

theorem keeps_tape (plan : Plan) (threshold : Nat) : (tape plan threshold).Keeps :=
  (sustains_tape plan threshold).keeps

end Executable

/-- What a backend makes keeps tensors good. -/
def Backend.Keeps (b : Backend) : Prop := ∀ f mode exe, b.compile f mode = .ok exe → exe.Keeps

theorem Backend.keeps_ofKind (kind : BackendKind) : (ofKind kind).Keeps := by
  intro f mode exe made
  cases kind with
  | interpreter =>
    obtain ⟨-, -, same⟩ := bind_eq_ok.1 made
    cases same
    exact Executable.keeps_interpreted f
  | cpu =>
    obtain ⟨plan, -, same⟩ := bind_eq_ok.1 made
    cases same
    exact Executable.keeps_tape plan _

theorem Registry.get?_of_lookupSole {r : Registry} {exe : Executable}
    (found : r.lookupSole = .ok exe) : ∃ name, r.get? name = some exe := by
  obtain ⟨entries⟩ := r
  unfold lookupSole at found
  split at found
  next name f only =>
    cases found
    refine ⟨name, ?_⟩
    dsimp only at only
    simp [Table.get?, only]
  · cases found
  · cases found

namespace Engine

theorem keeps_execute {exe : Executable} (keeps : exe.Keeps) : Run.Keeps (execute exe) :=
  keeps.adaptExcept _

/-- Every compiled function keeps tensors good. -/
def Keeps (e : Engine) : Prop := ∀ name exe, e.registry.get? name = some exe → exe.Keeps

theorem keeps_run {e : Engine} (keeps : e.Keeps) : Run.Keeps e.run := by
  intro μ
  rw [stateAfter, run, state_bind, state_check]
  cases found : e.registry.lookupSole with
  | error err => exact .refl μ.store
  | ok exe =>
    obtain ⟨name, registered⟩ := Registry.get?_of_lookupSole found
    exact keeps_execute (keeps name exe registered) μ

theorem keeps_runNamed {e : Engine} (keeps : e.Keeps) (name : String) :
    Run.Keeps (e.runNamed name) := by
  intro μ
  rw [stateAfter, runNamed, state_bind, state_check]
  cases found : e.registry.lookup name with
  | error err => exact .refl μ.store
  | ok exe => exact keeps_execute (keeps name exe (Registry.lookup_eq_ok.1 found)) μ

theorem keeps_iterate {e : Engine} (keeps : e.Keeps) (inputs : List (Placeholder × Tensor))
    (width iterations : Nat) (s : BatchState) :
    s.memory.store.Evolves
      (stateAfter (Batch.iterate e inputs width iterations) s).memory.store := by
  have binds (cursor : Nat) : Run.Keeps (Batch.bindRows inputs width cursor) :=
    (Run.sustains_bindRows inputs width cursor).keeps
  induction iterations generalizing s with
  | zero => exact .refl s.memory.store
  | succ iterations ih =>
    rw [stateAfter, Batch.iterate_succ]
    by_cases overflow : Batch.cursorBound ≤ s.cursor + width
    · rw [if_pos overflow]
      exact .refl s.memory.store
    · rw [if_neg overflow]
      cases bound : Batch.bindRows inputs width s.cursor s.memory with
      | error err μ => exact (binds s.cursor).of_error bound
      | ok _ μ =>
        have first := (binds s.cursor).of_ok bound
        dsimp only
        cases ran : e.run μ with
        | error err ν => exact first.trans ((keeps_run keeps).of_error ran)
        | ok _ ν =>
          have second := (keeps_run keeps).of_ok ran
          exact (first.trans second).trans (ih ⟨ν, s.cursor + width⟩)

theorem keeps_runBatch {e : Engine} (keeps : e.Keeps) (iterations : Nat)
    (placeholders : List Placeholder) (inputs : List Tensor) (s : BatchState) :
    s.memory.store.Evolves
      (stateAfter (e.runBatch iterations placeholders inputs) s).memory.store := by
  rw [stateAfter, runBatch_eq]
  cases Batch.validate placeholders inputs with
  | error err => exact .refl s.memory.store
  | ok width => exact keeps_iterate keeps (placeholders.zip inputs) width iterations s

end Engine
end TensorGraph
