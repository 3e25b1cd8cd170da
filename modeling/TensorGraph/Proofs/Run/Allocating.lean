import TensorGraph.Proofs.Run.Frame

/-!
Allocating the placeholders of a module. A placeholder that is bound with its type keeps its
tensor, and every other one gets a tensor of zeros for itself. After that everything that a
function of the module reads is there, so every function that can be compiled for the CPU runs,
unless it computes a value whose elements cannot be counted.
-/

namespace TensorGraph

open Workspace

variable {before mid after : Memory} {done rest : List Placeholder} {p : Placeholder}
  {t : Tensor}

def Value.zero (ty : TensorType) : Value := ⟨ty, Array.replicate ty.count (.zero false)⟩

theorem Value.zeros_eq {ty : TensorType} (rank : ty.shape.rank ≤ Shape.maxRank)
    (fits : ty.shape.Fits) : Value.zeros ty = .ok (.zero ty) := by
  have coerced : (Array.replicate ty.count (.zero false)).map ty.kind.coerce =
      Array.replicate ty.count (.zero false) := by
    rw [Array.map_replicate]
    exact congrArg _ ty.kind.coerce_default
  have size : (Array.replicate ty.count (Binary64.zero false)).size = ty.shape.count :=
    Array.size_replicate
  rw [Value.zeros, fits.elements, ok_bind, Shape.validate_eq_ok.2 rank, ok_bind]
  exact (Value.ofData_of_size rank fits size).trans (by rw [coerced]; rfl)

theorem Value.zeros_overflow {ty : TensorType} (unfit : ¬ ty.shape.Fits) :
    Value.zeros ty = .error .overflow := by
  rw [Value.zeros, Shape.elements_of_not_fits unfit, error_bind]

theorem Value.wellFormed_zero {ty : TensorType} (rank : ty.shape.rank ≤ Shape.maxRank)
    (fits : ty.shape.Fits) : (Value.zero ty).WellFormed :=
  wellFormed_of_zeros (zeros_eq rank fits)

theorem Run.discard_eq {α : Type} (x : Run α) (μ : Memory) :
    (discard x : Run Unit) μ =
      match x μ with
      | .ok _ μ => .ok () μ
      | .error e μ => .error e μ := by
  change EStateM.map _ x μ = _
  unfold EStateM.map
  cases x μ <;> rfl

/-- What allocating the placeholders of a list does to the memory. -/
structure Allocated (ps : List Placeholder) (before after : Memory) : Prop where
  lawful : after.Lawful
  grows : before.store.Grows after.store
  others : ∀ id, (∀ p ∈ ps, p.id ≠ id) → after.context.get? id = before.context.get? id
  kept : ∀ p ∈ ps, ∀ t, before.context.Binds p t → after.context.get? p.id = some t
  fresh : ∀ p ∈ ps, (∀ t, ¬ before.context.Binds p t) →
    ∃ t, after.context.Binds p t ∧ before.Private after p t ∧
      after.store.cells[t.address]? = some (.zero p.ty)

namespace Allocated

theorem start (good : before.Lawful) : Allocated [] before before where
  lawful := good
  grows := .refl _
  others _ _ := rfl
  kept _ member := nomatch member
  fresh _ member := nomatch member

theorem bound (allocated : Allocated done before after) (member : p ∈ done) :
    ∃ t, after.context.Binds p t := by
  by_cases old : ∃ t, before.context.Binds p t
  · obtain ⟨t, binds⟩ := old
    exact ⟨t, allocated.kept p member t binds, binds.2⟩
  · obtain ⟨t, binds, -⟩ := allocated.fresh p member fun t binds => old ⟨t, binds⟩
    exact ⟨t, binds⟩

theorem keep (allocated : Allocated done before mid) (new : ∀ q ∈ done, q.id ≠ p.id)
    (binds : mid.context.Binds p t) : Allocated (done ++ [p]) before mid := by
  have same : mid.context.get? p.id = before.context.get? p.id := allocated.others p.id new
  constructor
  case lawful => exact allocated.lawful
  case grows => exact allocated.grows
  case others =>
    intro id none
    exact allocated.others id fun q member => none q (List.mem_append_left _ member)
  case kept =>
    intro q member u binds'
    rcases List.mem_append.1 member with member | member
    · exact allocated.kept q member u binds'
    · obtain rfl := List.mem_singleton.1 member
      exact same.trans binds'.1
  case fresh =>
    intro q member unbound
    rcases List.mem_append.1 member with member | member
    · exact allocated.fresh q member unbound
    · obtain rfl := List.mem_singleton.1 member
      exact (unbound t ((Context.binds_congr same).1 binds)).elim

theorem add (allocated : Allocated done before mid) (new : ∀ q ∈ done, q.id ≠ p.id)
    (rank : p.ty.shape.rank ≤ Shape.maxRank) (fits : p.ty.shape.Fits)
    (unbound : ∀ t, ¬ mid.context.Binds p t) :
    Allocated (done ++ [p]) before ⟨(mid.store.allocate (.zero p.ty)).2,
      mid.context.insert p.id (mid.store.allocate (.zero p.ty)).1⟩ := by
  have same : mid.context.get? p.id = before.context.get? p.id := allocated.others p.id new
  have other {id : PlaceholderId} (different : id ≠ p.id) :
      (mid.context.insert p.id (mid.store.allocate (.zero p.ty)).1).get? id =
        mid.context.get? id := Table.get?_insert_ne _ different _
  constructor
  case lawful => exact allocated.lawful.bindNew (Value.wellFormed_zero rank fits) p
  case grows => exact allocated.grows.trans (mid.store.grows_allocate _)
  case others =>
    intro id none
    have different : id ≠ p.id := fun same =>
      none p (List.mem_append_right _ (List.mem_singleton_self _)) same.symm
    rw [other different]
    exact allocated.others id fun q member => none q (List.mem_append_left _ member)
  case kept =>
    intro q member u binds
    rcases List.mem_append.1 member with member | member
    · rw [other (new q member)]
      exact allocated.kept q member u binds
    · obtain rfl := List.mem_singleton.1 member
      exact (unbound u ((Context.binds_congr same).2 binds)).elim
  case fresh =>
    intro q member unbound'
    rcases List.mem_append.1 member with member | member
    · obtain ⟨u, binds, own, cell⟩ := allocated.fresh q member unbound'
      have inside := allocated.lawful.address_lt binds.1
      exact ⟨u, (Context.binds_congr (other (new q member))).2 binds, own.bindNew inside p _,
        (Store.getElem?_allocate inside).trans cell⟩
    · obtain rfl := List.mem_singleton.1 member
      exact ⟨_, ⟨Table.get?_insert_self _ _ _, rfl⟩,
        allocated.lawful.private_new allocated.grows.size_le q _, by simp [Store.allocate]⟩

theorem step (allocated : Allocated done before mid) (new : ∀ q ∈ done, q.id ≠ p.id)
    (rank : p.ty.shape.rank ≤ Shape.maxRank) :
    (p.ty.shape.Fits ∧
      ∃ t after, Run.allocate p mid = .ok t after ∧ Allocated (done ++ [p]) before after) ∨
    ¬ p.ty.shape.Fits ∧ Run.allocate p mid = .error .overflow mid := by
  rw [Run.allocate_eq]
  cases matched : mid.context.matching? p with
  | some t =>
    have binds := Context.matching?_eq_some.1 matched
    obtain ⟨wellFormed, stored⟩ := (allocated.lawful p.id t binds.1).read
    have fits : p.ty.shape.Fits := stored.trans binds.2 ▸ wellFormed.fits
    exact .inl ⟨fits, t, mid, rfl, allocated.keep new binds⟩
  | none =>
    by_cases fits : p.ty.shape.Fits
    · rw [Value.zeros_eq rank fits]
      exact .inl ⟨fits, _, _, rfl,
        allocated.add new rank fits (Context.matching?_eq_none.1 matched)⟩
    · rw [Value.zeros_overflow fits]
      exact .inr ⟨fits, rfl⟩

theorem run (allocated : Allocated done before mid)
    (distinct : ((done ++ rest).map (·.id)).Nodup)
    (ranks : ∀ p ∈ rest, p.ty.shape.rank ≤ Shape.maxRank) :
    ((∀ p ∈ rest, p.ty.shape.Fits) ∧
      ∃ after, (rest.forM fun p => discard (Run.allocate p) : Run Unit) mid = .ok () after ∧
        Allocated (done ++ rest) before after) ∨
    (∃ p ∈ rest, ¬ p.ty.shape.Fits) ∧
      ∃ after, (rest.forM fun p => discard (Run.allocate p) : Run Unit) mid =
        .error .overflow after := by
  induction rest generalizing done mid with
  | nil => exact .inl ⟨nofun, mid, rfl, by rwa [List.append_nil]⟩
  | cons p rest ih =>
    have new : ∀ q ∈ done, q.id ≠ p.id := by
      rw [List.map_append, List.nodup_append] at distinct
      intro q member
      exact distinct.2.2 _ (List.mem_map_of_mem member) _ List.mem_cons_self
    have first := Run.discard_eq (Run.allocate p) mid
    change _ ∨ _ ∧ ∃ after, (do discard (Run.allocate p)
                                rest.forM fun p => discard (Run.allocate p) : Run Unit) mid = _
    obtain ⟨fits, t, next, made, allocated'⟩ | ⟨unfit, failed⟩ :=
      allocated.step new (ranks p List.mem_cons_self)
    · rw [made] at first
      rw [List.append_cons] at distinct ⊢
      rw [state_bind_of_ok first]
      obtain ⟨all, after, ran, whole⟩ | ⟨⟨q, later, unfit⟩, after, failed⟩ :=
        ih allocated' distinct fun q member => ranks q (List.mem_cons_of_mem _ member)
      · exact .inl ⟨List.forall_mem_cons.2 ⟨fits, all⟩, after, (state_bind_of_ok first).trans ran,
          whole⟩
      · exact .inr ⟨⟨q, List.mem_cons_of_mem _ later, unfit⟩, after, failed⟩
    · rw [failed] at first
      exact .inr ⟨⟨p, List.mem_cons_self, unfit⟩, mid, state_bind_of_error first⟩

end Allocated

theorem Module.Lawful.ids_nodup {σ : Store} {m : Module} (lawful : m.Lawful σ) :
    (m.placeholders.map (·.id)).Nodup := by
  refine List.pairwise_map.2 (List.pairwise_iff_getElem.2 fun i j left right less same => ?_)
  rw [lawful.numbered i _ (List.getElem?_eq_getElem left),
    lawful.numbered j _ (List.getElem?_eq_getElem right)] at same
  exact Nat.ne_of_lt less (PlaceholderId.mk.inj same).2

theorem Interpreter.compile_of_floats {f : Function}
    (floats : ∀ n ∈ f.nodes, n.ty.kind.isFloat = true) (mode : Mode) :
    Interpreter.compile f mode = .ok (.interpreted f) := by
  refine bind_eq_ok.2 ⟨(), Backend.requireSupport_eq_ok.2 fun n present => ?_, rfl⟩
  rw [Interpreter.supports, floats n present, Bool.or_true]

/-- Where a function's placeholders are bound, it runs if the CPU backend compiles it and its
elements can be counted. Otherwise the program stops. -/
theorem Function.Lawful.runs_of_binds {declared : List Placeholder} {f : Function} {μ : Memory}
    (lawful : f.Lawful declared μ.store) (good : μ.Lawful)
    (bound : ∀ p ∈ declared, ∃ t, μ.context.Binds p t) {config : Cpu.Config} {mode : Mode}
    {tape : Executable} (compiled : Cpu.compile config f mode = .ok tape) :
    (f.Fits → ∃ after, tape.execute μ = .ok () after ∧
      (Executable.interpreted f).execute μ = .ok () after) ∧
    (¬ f.Fits → tape.execute μ = .error .overflow μ ∧
      (Executable.interpreted f).execute μ = .error .overflow μ) := by
  rw [Function.CompilesTo.execute ⟨_, .inr ⟨config, compiled⟩⟩ lawful good]
  obtain rfl := Cpu.infer_of_compile compiled
  obtain ⟨plan, -, planned, -⟩ := Cpu.compile_eq_ok compiled
  have unsaved : ¬ f.ReadsSave := (Plan.ofFunction_ok lawful).1 ⟨plan, planned⟩
  have sources : ∀ p ∈ f.sources, ∃ v, μ.load p = .ok v := by
    intro p source
    obtain ⟨i, n, found, op⟩ := Function.mem_sources.1 source
    exact Memory.exists_load_iff.2
      (bound p ((lawful.nodes i n found).declared p (by rw [op]; rfl)))
  refine ⟨fun fits => ?_, fun unfit => ?_⟩
  · obtain ⟨after, ran⟩ := (Interpreter.run_ok lawful good sources).2 ⟨unsaved, fits⟩
    have executed := Executable.execute_interpreted_eq_ok.2 ran
    exact ⟨after, executed, executed⟩
  · have ran := Interpreter.run_overflow lawful good sources unsaved unfit
    have executed := Executable.execute_interpreted_eq_error.2 ⟨_, ran, rfl⟩
    exact ⟨executed, executed⟩

/-- Allocating all placeholders of a module that was built and optimized in any way succeeds on
any bindings if the elements of each can be counted; otherwise the program stops. As long as no
placeholder is declared after it, every function that the CPU backend compiles then runs, there and
on the interpreter, whatever else is done to the module and to tensors meanwhile, exactly if the
elements of its nodes can be counted. -/
theorem allocated_module_runs {w : Workspace} (reached : w.Reachable) {c : Context}
    (good : Memory.Lawful ⟨w.store, c⟩) :
    ((∃ μ, Run.allocateAll w.module ⟨w.store, c⟩ = .ok () μ) ∨
      (∃ p ∈ w.module.placeholders, ¬ p.ty.shape.Fits) ∧
        ∃ μ, Run.allocateAll w.module ⟨w.store, c⟩ = .error .overflow μ) ∧
    ∀ μ, Run.allocateAll w.module ⟨w.store, c⟩ = .ok () μ →
      Allocated w.module.placeholders ⟨w.store, c⟩ μ ∧
      ∀ w' : Workspace, w'.Reachable → w'.module.placeholders = w.module.placeholders →
        μ.store.Evolves w'.store → ∀ f ∈ w'.module.functions, ∀ config mode tape,
          Cpu.compile config f mode = .ok tape →
          Interpreter.compile f mode = .ok (.interpreted f) ∧
          (f.Fits → ∃ after, tape.execute ⟨w'.store, μ.context⟩ = .ok () after ∧
            (Executable.interpreted f).execute ⟨w'.store, μ.context⟩ = .ok () after) ∧
          (¬ f.Fits →
            tape.execute ⟨w'.store, μ.context⟩ = .error .overflow ⟨w'.store, μ.context⟩ ∧
            (Executable.interpreted f).execute ⟨w'.store, μ.context⟩ =
              .error .overflow ⟨w'.store, μ.context⟩) := by
  obtain ⟨-, μ, ran, allocated⟩ | ⟨unfit, μ, failed⟩ :=
    (Allocated.start good).run reached.lawful.ids_nodup reached.lawful.ranks
  case inr =>
    refine ⟨.inr ⟨unfit, μ, failed⟩, fun μ' ran => ?_⟩
    cases failed.symm.trans ran
  refine ⟨.inl ⟨μ, ran⟩, fun μ' ran' => ?_⟩
  cases ran.symm.trans ran'
  refine ⟨allocated, fun w' reached' same evolves f member config mode tape compiled => ?_⟩
  obtain ⟨-, lawful⟩ := reached'.lawful.functions f member
  obtain rfl := Cpu.infer_of_compile compiled
  obtain ⟨-, -, -, floats⟩ := Cpu.compile_eq_ok compiled
  refine ⟨Interpreter.compile_of_floats floats _, ?_⟩
  refine Function.Lawful.runs_of_binds lawful (fun id t bound => ?_) (fun p declared => ?_) compiled
  · exact evolves t (allocated.lawful id t bound)
  · rw [same] at declared
    exact allocated.bound declared

/-- The input is unbound at first and gets zeros; the output keeps the cell of the constant. -/
theorem allocated_module_runs_shift :
    ∃ μ tape after t, Run.allocateAll Shift.workspace.module
        ⟨Shift.workspace.store, Shift.unready⟩ = .ok () μ ∧
      μ.context.get? Shift.target.id = some Shift.handle ∧ μ.context.Binds Shift.source t ∧
      μ.store.cells[t.address]? = some (.zero Shift.source.ty) ∧
      Cpu.compile {} Shift.function .infer = .ok tape ∧ tape.execute μ = .ok () after := by
  have good : Memory.Lawful ⟨Shift.workspace.store, Shift.unready⟩ := by
    refine Memory.lawful_of_entries fun entry member => ?_
    rw [List.mem_singleton.1 member]
    exact Shift.held
  obtain ⟨tape, compiled⟩ := Shift.compiles
  have counted : ∀ p ∈ Shift.workspace.module.placeholders, p.ty.shape.Fits := by decide
  obtain ⟨outcome, after⟩ := allocated_module_runs Shift.reachable good
  obtain ⟨μ, ran⟩ := outcome.resolve_right fun ⟨⟨p, declared, unfit⟩, _⟩ =>
    unfit (counted p declared)
  obtain ⟨allocated, runs⟩ := after μ ran
  have source : Shift.source ∈ Shift.workspace.module.placeholders := by decide
  have target : Shift.target ∈ Shift.workspace.module.placeholders := by decide
  obtain ⟨t, binds, -, zeros⟩ := allocated.fresh Shift.source source fun t binds => nomatch binds.1
  have reached : Workspace.Reachable ⟨μ.store, Shift.workspace.module⟩ :=
    .tensors Shift.reachable allocated.grows.evolves
  obtain ⟨-, runs, -⟩ := runs ⟨μ.store, Shift.workspace.module⟩ reached rfl
    (fun _ held => held) Shift.function Shift.member {} .infer tape compiled
  obtain ⟨after, executed, -⟩ := runs (by decide)
  exact ⟨μ, tape, after, t, ran, allocated.kept Shift.target target Shift.handle ⟨rfl, rfl⟩, binds,
    zeros, compiled, executed⟩

/-- With nothing bound, allocating succeeds, but the program stops in the product of two empty
matrices, on both backends. -/
theorem allocated_product_stops :
    Wide.workspace.Reachable ∧ Wide.function ∈ Wide.workspace.module.functions ∧
    ∃ μ plan, Run.allocateAll Wide.workspace.module ⟨Wide.workspace.store, ⟨[]⟩⟩ = .ok () μ ∧
      Cpu.compile {} Wide.function .infer = .ok (.tape plan 4096) ∧
      (Executable.tape plan 4096).execute μ = .error .overflow μ ∧
      (Executable.interpreted Wide.function).execute μ = .error .overflow μ :=
  ⟨Wide.reachable, Wide.member, _, _, rfl, rfl, rfl, rfl⟩

end TensorGraph
