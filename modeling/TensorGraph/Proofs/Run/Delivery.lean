import TensorGraph.Proofs.Run.Valuation

/-!
Leaving values in placeholders. With good bindings and well-formed values of the right types
this never fails, and the bindings stay good. Leaving a value and leaving its plain elements
are then the same.
-/

namespace TensorGraph

/-- Every binding is a good handle. -/
def Memory.Lawful (μ : Memory) : Prop :=
  ∀ id t, μ.context.get? id = some t → μ.store.Holds t

/-- `t` is bound to `p` and has the placeholder's type. -/
def Context.Binds (c : Context) (p : Placeholder) (t : Tensor) : Prop :=
  c.get? p.id = some t ∧ t.ty = p.ty

variable {μ : Memory} {p : Placeholder} {v : Value} {t : Tensor}

theorem Memory.lawful_of_entries (held : ∀ entry ∈ μ.context.entries, μ.store.Holds entry.2) :
    μ.Lawful := by
  intro id t found
  obtain ⟨entry, member, rfl⟩ := Option.map_eq_some_iff.1 found
  exact held entry (List.mem_of_find?_eq_some member)

theorem Memory.Lawful.bindNew (good : μ.Lawful) (wellFormed : v.WellFormed) (p : Placeholder) :
    Memory.Lawful ⟨(μ.store.allocate v).2, μ.context.insert p.id (μ.store.allocate v).1⟩ := by
  intro id u found
  dsimp only at found
  rw [Table.get?_insert] at found
  split at found
  · rw [← Option.some.inj found]
    exact μ.store.holds_allocate wellFormed
  · exact (μ.store.grows_allocate v).evolves u (good id u found)

theorem Context.matching?_eq_some {c : Context} : c.matching? p = some t ↔ c.Binds p t := by
  simp [Context.matching?, Context.Binds, Option.filter_eq_some_iff]

theorem Context.matching?_eq_none {c : Context} : c.matching? p = none ↔ ∀ t, ¬ c.Binds p t := by
  rw [Option.eq_none_iff_forall_ne_some]
  simp only [ne_eq, matching?_eq_some]

/-- A placeholder is read exactly when a tensor of its type is bound. -/
theorem Context.load_eq_ok {c : Context} : c.load p = .ok t ↔ c.Binds p t := by
  unfold Context.load Context.Binds
  cases c.get? p.id with
  | none => simp
  | some u =>
    constructor
    · intro loaded
      obtain ⟨_, type, same⟩ := bind_eq_ok.1 loaded
      cases same
      exact ⟨rfl, (TensorType.expectEq_ok_iff.1 type).symm⟩
    · rintro ⟨same, type⟩
      cases same
      exact bind_eq_ok.2 ⟨(), TensorType.expectEq_ok_iff.2 type.symm, rfl⟩

theorem Memory.load_eq_ok : μ.load p = .ok v ↔ ∃ t, μ.context.Binds p t ∧ v = μ.store.read t := by
  simp only [Memory.load, bind_eq_ok, Context.load_eq_ok, except_pure, Except.ok.injEq,
    eq_comm (a := v)]

theorem Memory.exists_load_iff : (∃ v, μ.load p = .ok v) ↔ ∃ t, μ.context.Binds p t := by
  simp only [Memory.load_eq_ok]
  constructor
  · rintro ⟨v, t, binds, -⟩
    exact ⟨t, binds⟩
  · rintro ⟨t, binds⟩
    exact ⟨μ.store.read t, t, binds, rfl⟩

theorem Memory.load_eq_error {e : Error} : μ.load p = .error e ↔ μ.context.load p = .error e := by
  rw [Memory.load]
  cases μ.context.load p <;> simp

theorem Context.binds_congr {c c' : Context} (same : c'.get? p.id = c.get? p.id) :
    c'.Binds p t ↔ c.Binds p t := by
  rw [Context.Binds, Context.Binds, same]

namespace Run

theorem store_eq {α : Type} (x : StoreM α) (μ : Memory) :
    (liftM x : Run α) μ =
      match x μ.store with
      | .ok a σ => .ok a { μ with store := σ }
      | .error e σ => .error e { μ with store := σ } := rfl

theorem allocate_eq (p : Placeholder) (μ : Memory) :
    allocate p μ =
      match μ.context.matching? p with
      | some t => .ok t μ
      | none =>
        match Value.zeros p.ty with
        | .ok v => .ok (μ.store.allocate v).1
            ⟨(μ.store.allocate v).2, μ.context.insert p.id (μ.store.allocate v).1⟩
        | .error e => .error e μ := by
  cases bound : μ.context.matching? p with
  | some t => simp only [allocate, state_bind, state_get, bound, state_pure]
  | none =>
    cases made : Value.zeros p.ty <;>
      simp only [allocate, state_bind, state_get, bound, state_check, made]
    rfl

theorem holds_of_allocate {ν : Memory} (good : μ.Lawful) (ran : allocate p μ = .ok t ν) :
    ν.store.Holds t := by
  rw [allocate_eq] at ran
  split at ran
  next u bound =>
    cases ran
    exact good p.id t (Context.matching?_eq_some.1 bound).1
  next =>
    split at ran
    next w made =>
      cases ran
      exact μ.store.holds_allocate (Value.wellFormed_of_zeros made)
    next => cases ran

theorem deliverElements_eq (p : Placeholder) (data : Array Binary64) (μ : Memory) :
    deliverElements p data μ =
      match μ.context.matching? p with
      | some t =>
        match t.update data μ.store with
        | .ok u σ => .ok u { μ with store := σ }
        | .error e σ => .error e { μ with store := σ }
      | none =>
        match Value.ofData data p.ty.shape p.ty.kind with
        | .ok v => .ok () ⟨(μ.store.allocate v).2, μ.context.insert p.id (μ.store.allocate v).1⟩
        | .error e => .error e μ := by
  cases bound : μ.context.matching? p with
  | some t =>
    simp only [deliverElements, state_bind, state_get, bound,
      store_eq]
    cases t.update data μ.store <;> rfl
  | none =>
    cases made : Value.ofData data p.ty.shape p.ty.kind <;>
      simp only [deliverElements, state_bind, state_get, bound,
        state_check, made]
    rfl

theorem deliver_eq_elements (type : v.ty = p.ty) (μ : Memory) :
    deliver p v μ = deliverElements p v.data μ := by
  rw [deliverElements_eq]
  cases bound : μ.context.matching? p with
  | some t =>
    have same : t.ty.expectEq v.ty = .ok () :=
      TensorType.expectEq_ok_iff.2 ((Context.matching?_eq_some.1 bound).2.trans type.symm)
    simp only [deliver, state_bind, state_get, bound, state_check,
      same, store_eq]
    cases t.update v.data μ.store <;> rfl
  | none =>
    rw [← type]
    cases made : v.duplicate with
    | ok w =>
      have made' : Value.ofData v.data v.ty.shape v.ty.kind = .ok w := made
      simp only [deliver, state_bind, state_get, bound,
        state_check, made, made']
      rfl
    | error e =>
      have made' : Value.ofData v.data v.ty.shape v.ty.kind = .error e := made
      simp only [deliver, state_bind, state_get, bound,
        state_check, made, made']

/-- Leaving a value overwrites the cell that is bound with the placeholder's type; where there
is none, a new cell is bound. -/
theorem deliver_cases (good : μ.Lawful) (wellFormed : v.WellFormed) (type : v.ty = p.ty) :
    (∃ t, μ.context.Binds p t ∧ deliver p v μ = .ok () ⟨μ.store.write t v, μ.context⟩) ∨
    (∀ t, ¬ μ.context.Binds p t) ∧ deliver p v μ =
      .ok () ⟨(μ.store.allocate v).2, μ.context.insert p.id (μ.store.allocate v).1⟩ := by
  rw [deliver_eq_elements type, deliverElements_eq]
  cases bound : μ.context.matching? p with
  | some t =>
    have binds := Context.matching?_eq_some.1 bound
    have stored : (μ.store.read t).ty = v.ty :=
      (good p.id t binds.1).read.2.trans (binds.2.trans type.symm)
    have made : (μ.store.read t).overwrite v.data = .ok v := by
      refine Value.overwrite_eq_ok.2 ⟨?_, ?_⟩
      · rw [stored]
        exact ⟨wellFormed.fits, wellFormed.size_eq.symm⟩
      · rw [stored, wellFormed.map_coerce]
    exact .inl ⟨t, binds, by simp only [Tensor.update_eq, made]⟩
  | none =>
    have made : Value.ofData v.data p.ty.shape p.ty.kind = .ok v := by
      rw [← type]
      exact Value.duplicate_eq wellFormed
    exact .inr ⟨Context.matching?_eq_none.1 bound, by simp only [made]⟩

theorem deliver_ok (good : μ.Lawful) (wellFormed : v.WellFormed) (type : v.ty = p.ty) :
    ∃ μ', deliver p v μ = .ok () μ' ∧ μ'.Lawful := by
  rcases deliver_cases good wellFormed type with ⟨t, binds, delivered⟩ | ⟨-, delivered⟩
  · refine ⟨_, delivered, fun id u found => ?_⟩
    have own : v.ty = t.ty := type.trans binds.2.symm
    exact Store.evolves_write (good p.id t binds.1) wellFormed own u (good id u found)
  · exact ⟨_, delivered, good.bindNew wellFormed p⟩

end Run

namespace Interpreter

theorem deliverAll_cons (entry : Placeholder × Value) (rest : List (Placeholder × Value)) :
    deliverAll (entry :: rest) = (do Run.deliver entry.1 entry.2; deliverAll rest) := rfl

theorem deliverAll_ok (good : μ.Lawful) {saves : List (Placeholder × Value)}
    (lawful : ∀ entry ∈ saves, entry.2.WellFormed ∧ entry.2.ty = entry.1.ty) :
    ∃ μ', deliverAll saves μ = .ok () μ' ∧ μ'.Lawful := by
  induction saves generalizing μ with
  | nil => exact ⟨μ, rfl, good⟩
  | cons entry rest ih =>
    obtain ⟨wellFormed, type⟩ := lawful entry List.mem_cons_self
    obtain ⟨μ₁, first, good₁⟩ := Run.deliver_ok good wellFormed type
    obtain ⟨μ₂, after, good₂⟩ := ih good₁ fun other member =>
      lawful other (List.mem_cons_of_mem entry member)
    refine ⟨μ₂, ?_, good₂⟩
    rw [deliverAll_cons, state_bind_of_ok first]
    exact after

/-- Leaves plain elements set aside. -/
def storeAll (stores : List (Placeholder × Array Binary64)) : Run Unit :=
  stores.forM fun (p, data) => Run.deliverElements p data

theorem storeAll_cons (entry : Placeholder × Array Binary64)
    (rest : List (Placeholder × Array Binary64)) :
    storeAll (entry :: rest) = (do Run.deliverElements entry.1 entry.2; storeAll rest) := rfl

theorem deliverAll_eq_storeAll {saves : List (Placeholder × Value)}
    (types : ∀ entry ∈ saves, entry.2.ty = entry.1.ty) (μ : Memory) :
    deliverAll saves μ = storeAll (saves.map fun entry => (entry.1, entry.2.data)) μ := by
  induction saves generalizing μ with
  | nil => rfl
  | cons entry rest ih =>
    have later := ih fun other member => types other (List.mem_cons_of_mem entry member)
    rw [deliverAll_cons, List.map_cons, storeAll_cons, state_bind, state_bind,
      Run.deliver_eq_elements (types entry List.mem_cons_self)]
    cases Run.deliverElements entry.1 entry.2.data μ with
    | ok u μ' => exact later μ'
    | error e μ' => rfl

end Interpreter
end TensorGraph
