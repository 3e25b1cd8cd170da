import TensorGraph.Proofs.Run.Failure

/-!
What a successful run may change. Everything is read before anything is left, and values are
left one after another, each in the cell that its placeholder was bound to with the right type
or else in a cell of its own. Placeholders may share cells with each other, with constants and
with the caller, so what counts is which cells were bound before the run, and which save into a
cell comes last.
-/

namespace TensorGraph

open Workspace

variable {declared : List Placeholder} {f : Function} {before mid after : Memory}
  {done saves : List (Placeholder × Value)} {p : Placeholder} {v : Value} {t : Tensor}
  {val : NodeId → Option Value}

/-- `t`, bound to `p`, shares its cell with no tensor from before and with no other binding. -/
structure Memory.Private (before after : Memory) (p : Placeholder) (t : Tensor) : Prop where
  new : before.store.cells.size ≤ t.address
  alone : ∀ id u, id ≠ p.id → after.context.get? id = some u → u.address ≠ t.address

theorem Memory.Lawful.address_lt {μ : Memory} (good : μ.Lawful) {id : PlaceholderId}
    (bound : μ.context.get? id = some t) : t.address < μ.store.cells.size := by
  obtain ⟨v, found, -⟩ := good id t bound
  exact (Array.getElem?_eq_some_iff.1 found).1

theorem Memory.Lawful.private_new (good : mid.Lawful)
    (grows : before.store.cells.size ≤ mid.store.cells.size) (p : Placeholder) (v : Value) :
    before.Private
      ⟨(mid.store.allocate v).2, mid.context.insert p.id (mid.store.allocate v).1⟩ p
      (mid.store.allocate v).1 := by
  refine ⟨grows, fun id u different found => ?_⟩
  have bound : mid.context.get? id = some u :=
    (Table.get?_insert_ne _ different _).symm.trans found
  exact Nat.ne_of_lt (good.address_lt bound)

theorem Memory.Private.bindNew (own : before.Private mid p t)
    (inside : t.address < mid.store.cells.size) (q : Placeholder) (v : Value) :
    before.Private
      ⟨(mid.store.allocate v).2, mid.context.insert q.id (mid.store.allocate v).1⟩ p t := by
  refine ⟨own.new, fun id u different found => ?_⟩
  by_cases same : id = q.id
  · subst same
    rw [Table.get?_insert_self] at found
    cases found
    exact Nat.ne_of_gt inside
  · exact own.alone id u different ((Table.get?_insert_ne _ same _).symm.trans found)

/-- What leaving `saves` one after another does to the memory. -/
structure Delivered (before : Memory) (saves : List (Placeholder × Value)) (after : Memory) :
    Prop where
  lawful : after.Lawful
  grows : before.store.cells.size ≤ after.store.cells.size
  others : ∀ id, (∀ entry ∈ saves, entry.1.id ≠ id) →
    after.context.get? id = before.context.get? id
  kept : ∀ entry ∈ saves, ∀ t, before.context.Binds entry.1 t →
    after.context.get? entry.1.id = some t
  fresh : ∀ entry ∈ saves, (∀ t, ¬ before.context.Binds entry.1 t) →
    ∃ t, after.context.Binds entry.1 t ∧ before.Private after entry.1 t ∧
      after.store.cells[t.address]? = some entry.2
  untouched : ∀ a < before.store.cells.size,
    (∀ entry ∈ saves, ∀ t, before.context.Binds entry.1 t → t.address ≠ a) →
    after.store.cells[a]? = before.store.cells[a]?
  last : ∀ earlier entry later, saves = earlier ++ entry :: later →
    ∀ t, before.context.Binds entry.1 t →
    (∀ other ∈ later, ∀ u, before.context.Binds other.1 u → u.address ≠ t.address) →
    after.store.cells[t.address]? = some entry.2

namespace Delivered

theorem start (good : before.Lawful) : Delivered before [] before where
  lawful := good
  grows := Nat.le_refl _
  others _ _ := rfl
  kept _ member := nomatch member
  fresh _ member := nomatch member
  untouched _ _ _ := rfl
  last earlier _ _ split := by simp at split

theorem binds (delivered : Delivered before done mid) (new : ∀ entry ∈ done, entry.1.id ≠ p.id) :
    mid.context.Binds p t ↔ before.context.Binds p t :=
  Context.binds_congr (delivered.others p.id new)

theorem write (delivered : Delivered before done mid) (good : before.Lawful)
    (new : ∀ entry ∈ done, entry.1.id ≠ p.id) (binds : before.context.Binds p t)
    (lawful : Memory.Lawful ⟨mid.store.write t v, mid.context⟩) :
    Delivered before (done ++ [(p, v)]) ⟨mid.store.write t v, mid.context⟩ := by
  have old : t.address < before.store.cells.size := good.address_lt binds.1
  have inside : t.address < mid.store.cells.size := Nat.lt_of_lt_of_le old delivered.grows
  constructor
  case lawful => exact lawful
  case grows => simpa using delivered.grows
  case others =>
    intro id none
    exact delivered.others id fun entry member => none entry (List.mem_append_left _ member)
  case kept =>
    intro entry member u binds'
    rcases List.mem_append.1 member with member | member
    · exact delivered.kept entry member u binds'
    · obtain rfl := List.mem_singleton.1 member
      exact ((delivered.binds new).2 binds').1
  case fresh =>
    intro entry member unbound
    rcases List.mem_append.1 member with member | member
    · obtain ⟨u, binds', own, cell⟩ := delivered.fresh entry member unbound
      have apart : t.address ≠ u.address := Nat.ne_of_lt (Nat.lt_of_lt_of_le old own.new)
      exact ⟨u, binds', ⟨own.new, own.alone⟩, by rw [Store.getElem?_write_ne apart, cell]⟩
    · obtain rfl := List.mem_singleton.1 member
      exact (unbound t binds).elim
  case untouched =>
    intro a bound none
    have apart : t.address ≠ a :=
      none (p, v) (List.mem_append_right _ (List.mem_singleton_self _)) t binds
    rw [Store.getElem?_write_ne apart]
    exact delivered.untouched a bound fun entry member =>
      none entry (List.mem_append_left _ member)
  case last =>
    intro earlier entry later split u binds' final
    rcases append_singleton_eq_split split with ⟨rfl, rfl, rfl⟩ | ⟨later, rfl, rfl⟩
    · obtain rfl := Option.some.inj (binds.1.symm.trans binds'.1)
      simp [Store.write, inside]
    · have apart : t.address ≠ u.address :=
        final (p, v) (List.mem_append_right _ (List.mem_singleton_self _)) t binds
      rw [Store.getElem?_write_ne apart]
      exact delivered.last earlier entry later rfl u binds' fun other member =>
        final other (List.mem_append_left _ member)

theorem allocate (delivered : Delivered before done mid) (good : before.Lawful)
    (new : ∀ entry ∈ done, entry.1.id ≠ p.id) (unbound : ∀ t, ¬ before.context.Binds p t)
    (type : v.ty = p.ty) (lawful : Memory.Lawful
      ⟨(mid.store.allocate v).2, mid.context.insert p.id (mid.store.allocate v).1⟩) :
    Delivered before (done ++ [(p, v)])
      ⟨(mid.store.allocate v).2, mid.context.insert p.id (mid.store.allocate v).1⟩ := by
  have cells {a : Nat} (bound : a < mid.store.cells.size) :
      (mid.store.allocate v).2.cells[a]? = mid.store.cells[a]? := Store.getElem?_allocate bound
  have old {a : Nat} (bound : a < before.store.cells.size) : a < mid.store.cells.size :=
    Nat.lt_of_lt_of_le bound delivered.grows
  have other {id : PlaceholderId} (different : id ≠ p.id) :
      (mid.context.insert p.id (mid.store.allocate v).1).get? id = mid.context.get? id :=
    Table.get?_insert_ne _ different _
  constructor
  case lawful => exact lawful
  case grows =>
    have grows := delivered.grows
    simp only [Store.allocate, Array.size_push]
    omega
  case others =>
    intro id none
    have different : id ≠ p.id := fun same =>
      none (p, v) (List.mem_append_right _ (List.mem_singleton_self _)) same.symm
    rw [other different]
    exact delivered.others id fun entry member => none entry (List.mem_append_left _ member)
  case kept =>
    intro entry member u binds
    rcases List.mem_append.1 member with member | member
    · rw [other (new entry member)]
      exact delivered.kept entry member u binds
    · obtain rfl := List.mem_singleton.1 member
      exact (unbound u binds).elim
  case fresh =>
    intro entry member unbound'
    rcases List.mem_append.1 member with member | member
    · obtain ⟨u, binds, own, cell⟩ := delivered.fresh entry member unbound'
      have inside := delivered.lawful.address_lt binds.1
      exact ⟨u, (Context.binds_congr (other (new entry member))).2 binds,
        own.bindNew inside p v, (cells inside).trans cell⟩
    · obtain rfl := List.mem_singleton.1 member
      exact ⟨(mid.store.allocate v).1, ⟨Table.get?_insert_self _ _ _, type⟩,
        delivered.lawful.private_new delivered.grows p v, by simp [Store.allocate]⟩
  case untouched =>
    intro a bound none
    rw [cells (old bound)]
    exact delivered.untouched a bound fun entry member =>
      none entry (List.mem_append_left _ member)
  case last =>
    intro earlier entry later split u binds final
    rcases append_singleton_eq_split split with ⟨rfl, rfl, rfl⟩ | ⟨later, rfl, rfl⟩
    · exact (unbound u binds).elim
    · rw [cells (old (good.address_lt binds.1))]
      exact delivered.last earlier entry later rfl u binds fun other member =>
        final other (List.mem_append_left _ member)

theorem step (delivered : Delivered before done mid) (good : before.Lawful)
    (new : ∀ entry ∈ done, entry.1.id ≠ p.id) (wellFormed : v.WellFormed) (type : v.ty = p.ty)
    (ran : Run.deliver p v mid = .ok () after) : Delivered before (done ++ [(p, v)]) after := by
  obtain ⟨after', ran', lawful⟩ := Run.deliver_ok delivered.lawful wellFormed type
  cases ran.symm.trans ran'
  rcases Run.deliver_cases delivered.lawful wellFormed type with ⟨t, binds, written⟩ |
    ⟨unbound, allocated⟩
  · cases ran.symm.trans written
    exact delivered.write good new ((delivered.binds new).1 binds) lawful
  · cases ran.symm.trans allocated
    exact delivered.allocate good new (fun t binds => unbound t ((delivered.binds new).2 binds))
      type lawful

/-- All of them, one after another. Each placeholder is saved into once. -/
theorem run (delivered : Delivered before done mid) (good : before.Lawful)
    (distinct : ((done ++ saves).map (·.1.id)).Nodup)
    (lawful : ∀ entry ∈ saves, entry.2.WellFormed ∧ entry.2.ty = entry.1.ty)
    (ran : Interpreter.deliverAll saves mid = .ok () after) :
    Delivered before (done ++ saves) after := by
  induction saves generalizing done mid with
  | nil =>
    cases ran
    rwa [List.append_nil]
  | cons entry rest ih =>
    obtain ⟨wellFormed, type⟩ := lawful entry List.mem_cons_self
    rw [Interpreter.deliverAll_cons, state_bind_eq_ok] at ran
    obtain ⟨u, next, first, later⟩ := ran
    have new : ∀ other ∈ done, other.1.id ≠ entry.1.id := by
      rw [List.map_append, List.nodup_append] at distinct
      intro other member
      exact distinct.2.2 _ (List.mem_map_of_mem member) _ List.mem_cons_self
    have delivered' := delivered.step good new wellFormed type first
    rw [List.append_cons] at distinct ⊢
    exact ih delivered' distinct (fun other member => lawful other (List.mem_cons_of_mem _ member))
      later

end Delivered
theorem Settled.saved?_eq (settled : Settled f before f.nodes.length val)
    (lawful : f.Lawful declared before.store) {i : Nat} {n : Node} {x : NodeId}
    (found : f.nodes[i]? = some n) (op : n.op = .save x p) :
    ∃ v, val x = some v ∧ n.saved? val = some (p, v) := by
  have evaluates := settled.evaluates
  rw [List.take_length] at evaluates
  have member : x ∈ n.op.operands := by simp [op, Op.operands]
  obtain ⟨v, value⟩ := (evaluates i n found).operand member
  have later : x < f.nodes.length := Nat.lt_trans (lawful.operand_lt found member)
    (List.getElem?_eq_some_iff.1 found).1
  have gives := settled.gives x _ later (List.getElem?_eq_getElem later)
  rw [value] at gives
  refine ⟨v, value, ?_⟩
  simp [Node.saved?, op, value, Value.duplicate_eq gives.2.1, Except.toOption]

theorem Settled.saved_outputs (settled : Settled f before f.nodes.length val)
    (lawful : f.Lawful declared before.store) : (f.saved val).map (·.1) = f.outputs := by
  rw [Function.saved, Function.outputs, List.map_filterMap]
  refine List.filterMap_congr fun n member => ?_
  obtain ⟨i, found⟩ := List.mem_iff_getElem?.1 member
  cases op : n.op with
  | save x p =>
    obtain ⟨v, -, saved⟩ := settled.saved?_eq lawful found op
    rw [saved]
    rfl
  | _ => simp [Node.saved?, op, Op.target?]

/-- A successful run has values for its nodes, and leaves what they set aside. -/
theorem Interpreter.run_settled (lawful : f.Lawful declared before.store) (good : before.Lawful)
    (ran : Interpreter.run f before = .ok () after) :
    ∃ val, Settled f before f.nodes.length val ∧
      deliverAll (f.saved val) before = .ok () after := by
  obtain ⟨val, evaluates, delivered⟩ := (run_eq_ok lawful.topological).1 ran
  exact ⟨val, evaluates.settled lawful good (Nat.le_refl _), delivered⟩

/-- What a run from `before` to `after` does when `val` gives its nodes' values. -/
structure Function.Effect (f : Function) (val : NodeId → Option Value) (before after : Memory) :
    Prop where
  /-- Every input has the value from before the run. -/
  reads : ∀ (i : Nat) (n : Node) (p : Placeholder), f.nodes[i]? = some n → n.op = .input p →
    ∃ t, before.context.Binds p t ∧ val i = some (before.store.read t)
  values : Evaluates before.load before.store.read f.nodes val
  unsaved : ∀ id, (∀ p ∈ f.outputs, p.id ≠ id) →
    after.context.get? id = before.context.get? id
  kept : ∀ p ∈ f.outputs, ∀ t, before.context.Binds p t → after.context.get? p.id = some t
  fresh : ∀ (i : Nat) (n : Node) (x : NodeId) (p : Placeholder), f.nodes[i]? = some n →
    n.op = .save x p → (∀ t, ¬ before.context.Binds p t) →
    ∃ t v, after.context.Binds p t ∧ before.Private after p t ∧ val x = some v ∧
      after.store.cells[t.address]? = some v
  untouched : ∀ a < before.store.cells.size,
    (∀ p ∈ f.outputs, ∀ t, before.context.Binds p t → t.address ≠ a) →
    after.store.cells[a]? = before.store.cells[a]?
  /-- The last save into a cell, in node order, gives what it holds in the end. -/
  last : ∀ (i : Nat) (n : Node) (x : NodeId) (p : Placeholder), f.nodes[i]? = some n →
    n.op = .save x p → ∀ t, before.context.Binds p t →
    (∀ (j : Nat) (m : Node) (y : NodeId) (q : Placeholder), i < j → f.nodes[j]? = some m →
      m.op = .save y q → ∀ u, before.context.Binds q u → u.address ≠ t.address) →
    ∃ v, val x = some v ∧ after.store.cells[t.address]? = some v

/-- Leaving what the nodes set aside is all that a run does. -/
theorem Delivered.effect (delivered : Delivered before (f.saved val) after)
    (settled : Settled f before f.nodes.length val) (lawful : f.Lawful declared before.store) :
    f.Effect val before after := by
  have evaluates := settled.evaluates
  rw [List.take_length] at evaluates
  have outputs := settled.saved_outputs lawful
  have output {p : Placeholder} (member : p ∈ f.outputs) : ∃ v, (p, v) ∈ f.saved val := by
    rw [← outputs] at member
    obtain ⟨⟨q, v⟩, saved, rfl⟩ := List.mem_map.1 member
    exact ⟨v, saved⟩
  have saved {entry : Placeholder × Value} (member : entry ∈ f.saved val) :
      entry.1 ∈ f.outputs := by
    rw [← outputs]
    exact List.mem_map_of_mem member
  refine ⟨fun i n p found op => evaluates.binds found op, evaluates, fun id none => ?_,
    fun p member t binds => ?_, fun i n x p found op unbound => ?_, fun a bound none => ?_,
    fun i n x p found op t binds final => ?_⟩
  · exact delivered.others id fun entry member => none entry.1 (saved member)
  · obtain ⟨v, member⟩ := output member
    exact delivered.kept (p, v) member t binds
  · obtain ⟨v, value, there⟩ := settled.saved?_eq lawful found op
    have member : (p, v) ∈ f.saved val :=
      List.mem_filterMap.2 ⟨n, List.mem_of_getElem? found, there⟩
    obtain ⟨t, binds, own, cell⟩ := delivered.fresh (p, v) member unbound
    exact ⟨t, v, binds, own, value, cell⟩
  · exact delivered.untouched a bound fun entry member => none entry.1 (saved member)
  · obtain ⟨v, value, there⟩ := settled.saved?_eq lawful found op
    obtain ⟨inside, rfl⟩ := List.getElem?_eq_some_iff.1 found
    have split : f.saved val = (f.nodes.take i).filterMap (·.saved? val) ++
        (p, v) :: (f.nodes.drop (i + 1)).filterMap (·.saved? val) := by
      rw [Function.saved]
      conv_lhs => rw [← List.take_append_drop i f.nodes, List.drop_eq_getElem_cons inside]
      rw [List.filterMap_append, List.filterMap_cons, there]
    refine ⟨v, value, delivered.last _ _ _ split t binds fun other member u binds' => ?_⟩
    -- A later entry comes from a later save.
    obtain ⟨m, present, entry⟩ := List.mem_filterMap.1 member
    obtain ⟨k, later⟩ := List.mem_iff_getElem?.1 present
    rw [List.getElem?_drop] at later
    cases op' : m.op with
    | save y q =>
      obtain ⟨w, -, there'⟩ := settled.saved?_eq lawful later op'
      obtain rfl := Option.some.inj (there'.symm.trans entry)
      exact final _ m y q (by omega) later op' u binds'
    | _ => simp [Node.saved?, op'] at entry

/-- What a successful run may change, for a function that was built and optimized in any way
and compiled by a built-in backend, on any memory, whatever shares cells in it. -/
theorem run_changes_only_what_it_saves {w : Workspace} (reached : w.Reachable) {f : Function}
    (member : f ∈ w.module.functions) {exe : Executable} (compiled : f.CompilesTo exe)
    {c : Context} (good : Memory.Lawful ⟨w.store, c⟩) {after : Memory}
    (ran : exe.execute ⟨w.store, c⟩ = .ok () after) : ∃ val, f.Effect val ⟨w.store, c⟩ after := by
  obtain ⟨-, lawful⟩ := reached.lawful.functions f member
  rw [compiled.execute lawful good, Executable.execute_interpreted_eq_ok] at ran
  obtain ⟨val, settled, delivered⟩ := Interpreter.run_settled lawful good ran
  refine ⟨val, Delivered.effect ?_ settled lawful⟩
  refine (Delivered.start good).run good ?_ (fun entry member => ?_) delivered
  · have distinct := lawful.distinct
    rwa [← settled.saved_outputs lawful, List.map_map] at distinct
  · exact settled.saved lawful (by rwa [List.take_length])

/-- The function reads and overwrites the cell of its own constant. -/
theorem run_changes_only_what_it_saves_shift :
    ∃ tape after val, Cpu.compile {} Shift.function .infer = .ok tape ∧
      tape.execute ⟨Shift.workspace.store, Shift.bindings⟩ = .ok () after ∧
      Shift.function.Effect val ⟨Shift.workspace.store, Shift.bindings⟩ after ∧
      after.context.get? Shift.target.id = some Shift.handle ∧
      ∃ v, val 4 = some v ∧ after.store.cells[0]? = some v := by
  obtain ⟨tape, compiled⟩ := Shift.compiles
  have compilesTo : Shift.function.CompilesTo tape := ⟨.infer, .inr ⟨{}, compiled⟩⟩
  have lawful := (Shift.reachable.lawful.functions _ Shift.member).2
  have good : Memory.Lawful ⟨Shift.workspace.store, Shift.bindings⟩ := Shift.good Shift.held
  have unsaved : ¬ Shift.function.ReadsSave := by
    obtain ⟨plan, -, planned, -⟩ := Cpu.compile_eq_ok compiled
    exact (Plan.ofFunction_ok lawful).1 ⟨plan, planned⟩
  have bound : Shift.function.Bound Shift.bindings := Shift.bound (by decide)
  obtain ⟨after, ran⟩ := (Interpreter.run_ok lawful good
    (bound.load lawful Shift.reachable.lawful.apart)).2 ⟨unsaved, by decide⟩
  rw [← Executable.execute_interpreted_eq_ok, ← compilesTo.execute lawful good] at ran
  obtain ⟨val, effect⟩ :=
    run_changes_only_what_it_saves Shift.reachable Shift.member compilesTo good ran
  have binds : Shift.bindings.Binds Shift.target Shift.handle := ⟨rfl, rfl⟩
  have save : Shift.function.nodes[5]? =
      some ⟨"saved", .save 4 Shift.target, ⟨.float, .vector 2⟩⟩ := by decide
  refine ⟨tape, after, val, compiled, ran, effect, effect.kept _ (by decide) _ binds, ?_⟩
  refine effect.last 5 _ 4 _ save rfl _ binds fun j m y q later found => ?_
  have inside := (List.getElem?_eq_some_iff.1 found).1
  have size : Shift.function.nodes.length = 6 := by decide
  omega

end TensorGraph
