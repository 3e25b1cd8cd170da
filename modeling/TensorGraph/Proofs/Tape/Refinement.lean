import TensorGraph.Proofs.Run.Runs
import TensorGraph.Proofs.Tape.Frees
import TensorGraph.Proofs.Tape.Kernels

/-!
A tape does what the interpreter does. Node by node, the machine's slots hold the elements of
the values that are still needed, and its stores those of the values set aside. So a compiled
function runs as the interpreted one does on any memory, and fails with the same error.
-/

namespace TensorGraph

open Lowering Workspace

namespace Tape

variable {declared : List Placeholder} {f : Function} {plan : Plan} {threshold : Nat} {μ : Memory}
  {n : Node} {k : Nat} {val : NodeId → Option Value} {v : Value} {m : Machine} {dst : Slot}
  {i : Instruction} {cs : List (String × Tensor)}

/-- The slot of an operand holds its value. -/
structure Holds (f : Function) (slotOf : List (Option Slot)) (val : NodeId → Option Value)
    (m : Machine) (x : Nat) (v : Value) : Prop where
  value : val x = some v
  wellFormed : v.WellFormed
  typed : f.types[x]? = some v.ty
  read : ∀ slot, slotOf[x]? = some (some slot) → m.read slot = .ok v.data

theorem Holds.type_eq {slotOf : List (Option Slot)} {x : Nat} (holds : Holds f slotOf val m x v)
    {ty : TensorType} (known : f.types[x]? = some ty) : v.ty = ty :=
  Option.some.inj (holds.typed.symm.trans known)

section

variable {load : Placeholder → Except Error Value} {const : Tensor → Value} {op : Op Nat}
  {ty : TensorType} {slotOf : List (Option Slot)} {x y : Nat}

theorem exists_operand (yields : Yields load const val op ty (some v)) (computes : op.Computes)
    (reads : op.operands = [x]) (operands : ∀ x ∈ op.operands, ∃ u, Holds f slotOf val m x u) :
    ∃ u, Holds f slotOf val m x u ∧ op.evaluate .empty [u] ty = .ok v := by
  obtain ⟨args, w, values, made, same⟩ := yields.of_computes computes
  rw [reads] at operands values
  obtain ⟨u, holds⟩ := operands x (List.mem_singleton_self x)
  obtain ⟨u', rfl, value⟩ := Op.values_one values
  obtain rfl := Option.some.inj same
  obtain rfl := Option.some.inj (holds.value.symm.trans value)
  exact ⟨u, holds, made⟩

theorem exists_operands (yields : Yields load const val op ty (some v)) (computes : op.Computes)
    (reads : op.operands = [x, y])
    (operands : ∀ x ∈ op.operands, ∃ u, Holds f slotOf val m x u) :
    ∃ u w, Holds f slotOf val m x u ∧ Holds f slotOf val m y w ∧
      op.evaluate .empty [u, w] ty = .ok v := by
  obtain ⟨args, r, values, made, same⟩ := yields.of_computes computes
  rw [reads] at operands values
  obtain ⟨u, first⟩ := operands x List.mem_cons_self
  obtain ⟨w, second⟩ := operands y (List.mem_cons_of_mem x (List.mem_singleton_self y))
  obtain ⟨u', w', rfl, value, value'⟩ := Op.values_two values
  obtain rfl := Option.some.inj same
  obtain rfl := Option.some.inj (first.value.symm.trans value)
  obtain rfl := Option.some.inj (second.value.symm.trans value')
  exact ⟨u, w, first, second, made⟩

end

theorem result_eq {slotOf : List (Option Slot)} {count : Nat} {old : Buffer}
    (emits : Emits f slotOf count n dst i cs) (typed : n.op.HasType f.types n.ty)
    (float : n.ty.kind.isFloat) (own : plan.slotTypes[dst]? = some n.ty)
    (constants : ∀ entry, cs[0]? = some entry → plan.constants[count]? = some entry)
    (operands : ∀ x ∈ n.op.operands, ∃ v, Holds f slotOf val m x v)
    (yields : Yields μ.load μ.store.read val n.op n.ty (some v)) (type : v.ty = n.ty) :
    Machine.result plan threshold μ m dst old i = .ok v.data := by
  obtain ⟨name, op, ty⟩ := n
  dsimp only at typed float own operands yields type
  subst type
  have kind : (plan.slotTypes[dst]?.map (·.kind)).getD .float = v.ty.kind := by rw [own]; rfl
  cases emits with
  | @input p op =>
    cases op
    cases yields with
    | input bound =>
      obtain ⟨t, found, same⟩ := bind_eq_ok.1 bound
      cases same
      exact bind_eq_ok.2 ⟨t, found, rfl⟩
    | computed computes => exact computes.elim
  | @constant t op =>
    cases op
    cases yields with
    | constant =>
      have found := constants _ rfl
      unfold Machine.result
      simp only [found, Option.map_some, Option.getD_some]
      rfl
    | computed computes => exact computes.elim
  | @unary g x a op source =>
    cases op
    obtain ⟨u, holds, made⟩ := exists_operand yields trivial rfl operands
    refine bind_eq_ok.2 ⟨u.data, holds.read a source, ?_⟩
    rw [kind]
    exact congrArg Except.ok (Kernel.unary_eq holds.wellFormed made)
  | @binary g x y a b op left right =>
    cases op
    obtain ⟨u, w, first, second, made⟩ := exists_operands yields trivial rfl operands
    have typeU := first.type_eq typed.of_binary.1
    have typeW := second.type_eq typed.of_binary.2
    refine bind_eq_ok.2 ⟨u.data, first.read a left, bind_eq_ok.2 ⟨w.data, second.read b right, ?_⟩⟩
    rw [kind]
    exact congrArg Except.ok (Kernel.binary_eq first.wellFormed second.wellFormed
      (typeU.trans typeW.symm) (typeU.symm ▸ float) made)
  | @addRelu x y a b op left right =>
    cases op
    obtain ⟨u, w, first, second, made⟩ := exists_operands yields trivial rfl operands
    have typeU := first.type_eq typed.of_addRelu.1
    have typeW := second.type_eq typed.of_addRelu.2
    refine bind_eq_ok.2 ⟨u.data, first.read a left, bind_eq_ok.2 ⟨w.data, second.read b right, ?_⟩⟩
    rw [kind]
    exact congrArg Except.ok (Kernel.addRelu_eq first.wellFormed second.wellFormed
      (typeU.trans typeW.symm) (typeU.symm ▸ float) made)
  | @matmul x y a b kind' m k op left right shape =>
    cases op
    obtain ⟨u, w, first, second, made⟩ := exists_operands yields trivial rfl operands
    obtain ⟨kind'', m', k', cols, typeX, typeY, type⟩ := typed.of_matmul
    cases shape.symm.trans typeX
    have typeU := first.type_eq typeX
    have typeW := second.type_eq typeY
    refine bind_eq_ok.2 ⟨u.data, first.read a left, bind_eq_ok.2 ⟨w.data, second.read b right, ?_⟩⟩
    rw [kind]
    have width : v.ty.shape.dims.getD 1 0 = cols := by rw [type]; rfl
    dsimp only
    rw [width]
    exact Kernel.matmul_eq threshold (by rw [typeU, typeW]) (by rw [typeU]) (by rw [typeW]) made
  | @reshape x a op source =>
    cases op
    obtain ⟨u, holds, made⟩ := exists_operand yields trivial rfl operands
    exact (holds.read a source).trans (congrArg Except.ok (Kernel.reshape_eq holds.wellFormed made))
  | @transpose x a rows cols op source shape =>
    cases op
    obtain ⟨u, holds, made⟩ := exists_operand yields trivial rfl operands
    obtain ⟨kind', rows', cols', typeX, type⟩ := typed.of_transpose
    have typeU := holds.type_eq typeX
    rw [type] at shape
    cases shape
    refine bind_eq_ok.2 ⟨u.data, holds.read a source, ?_⟩
    exact Kernel.transpose_eq holds.wellFormed (by rw [typeU]) made

/-- The machine after the first `k` nodes: slots hold what is still needed, and what was set
aside is set aside in the walk too. -/
structure Represents (f : Function) (plan : Plan) (μ : Memory) (k : Nat) (s : Lowering)
    (w : Interpreter.Walk) (m : Machine) (val : NodeId → Option Value) : Prop where
  settled : Settled f μ k val
  walk : w = .upTo val (f.nodes.take k)
  length : m.slots.length = plan.slotTypes.length
  values : ∀ (x slot : Nat) (v : Value), f.Held k x → s.slotOf[x]? = some (some slot) →
    val x = some v → m.slots[slot]? = some (some v.data)
  stores : m.stores = w.saves.map fun entry => (entry.1, entry.2.data)

variable {s t : Lowering} {w : Interpreter.Walk}

theorem represents_start (f : Function) (plan : Plan) (μ : Memory) :
    Represents f plan μ 0 .start .start (.start plan) fun _ => none := by
  refine ⟨.start f μ _, rfl, List.length_map _, fun x slot v held => ?_, rfl⟩
  exact (Nat.not_lt_zero x held.1).elim

theorem Represents.holds (represents : Represents f plan μ k s w m val)
    (lawful : f.Lawful declared μ.store) (unsaved : ¬ f.ReadsSave) (found : f.nodes[k]? = some n)
    {x : Nat} (member : x ∈ n.op.operands) : ∃ v, Holds f s.slotOf val m x v := by
  obtain ⟨v, value, wellFormed, typed⟩ :=
    represents.settled.operand lawful found unsaved member
  have held := lawful.held_operand found member
  rw [List.getElem?_take_of_lt held.1] at typed
  refine ⟨v, value, wellFormed, typed, fun slot placed => ?_⟩
  rw [Machine.read, represents.values x slot v held placed value]

theorem Holds.emptied {slotOf : List (Option Slot)} {x : Nat} (holds : Holds f slotOf val m x v)
    (apart : slotOf[x]? ≠ some (some dst)) :
    Holds f slotOf val { m with slots := m.slots.set dst none } x v := by
  refine ⟨holds.value, holds.wellFormed, holds.typed, fun slot placed => ?_⟩
  have other : dst ≠ slot := fun same => apart (same ▸ placed)
  rw [← holds.read slot placed, Machine.read, Machine.read, List.getElem?_set_ne other]

theorem Represents.walk_step (represents : Represents f plan μ k s w m val)
    (lawful : f.Lawful declared μ.store) (found : f.nodes[k]? = some n) {r : Option Value}
    (yields : Yields μ.load μ.store.read val n.op n.ty r) :
    ∃ w', Interpreter.step μ w n = .ok w' ∧
      w' = .upTo (extended val k r) (f.nodes.take (k + 1)) ∧
      w'.saves = w.saves ++ (n.saved? val).toList := by
  have inside := (List.getElem?_eq_some_iff.1 found).1
  have length : (f.nodes.take k).length = k := List.length_take_of_le (Nat.le_of_lt inside)
  have last : ∀ x ∈ n.op.operands, x < (f.nodes.take k).length := fun x member =>
    length.symm ▸ lawful.operand_lt found member
  refine ⟨.next val (f.nodes.take k) n r, ?_, ?_, ?_⟩
  · rw [represents.walk]
    exact (Interpreter.step_eq_ok last).2 ⟨r, yields, rfl⟩
  · rw [Interpreter.next_eq_upTo (lawful.topological.take k) last, List.take_add_one, found, length]
    rfl
  · rw [represents.walk]
    rfl

theorem writes_of_emits {slotOf : List (Option Slot)} {count : Nat}
    (emits : Emits f slotOf count n dst i cs) : i.writes? = some dst := by
  cases emits <;> rfl

theorem step_input_error {p : Placeholder} {e : Error} (op : n.op = .input p)
    (failed : μ.load p = .error e) {slotOf : List (Option Slot)} {count : Nat}
    (emits : Emits f slotOf count n dst i cs) : Machine.step plan threshold μ m i = .error e := by
  have unread : μ.context.load p = .error e := Memory.load_eq_error.1 failed
  have load : i = .loadInput p dst := by
    cases emits with
    | input op' =>
      cases op.symm.trans op'
      rfl
    | constant op' | unary op' | binary op' | addRelu op' | matmul op' | reshape op'
    | transpose op' => cases op.symm.trans op'
  rw [Machine.step_write (writes_of_emits emits), load]
  simp only [Machine.result, unread]
  rfl

theorem Represents.operands (represents : Represents f plan μ k s w m val)
    (lawful : f.Lawful declared μ.store) (unsaved : ¬ f.ReadsSave) (found : f.nodes[k]? = some n)
    (free : ∀ x : Nat, f.Held k x → s.slotOf[x]? ≠ some (some dst)) {x : Nat}
    (member : x ∈ n.op.operands) :
    ∃ u, Holds f s.slotOf val { m with slots := m.slots.set dst none } x u := by
  obtain ⟨u, holds⟩ := represents.holds lawful unsaved found member
  exact ⟨u, holds.emptied (free x (lawful.held_operand found member))⟩

theorem Represents.machine_overflow (represents : Represents f plan μ k s w m val)
    (lawful : f.Lawful declared μ.store) (unsaved : ¬ f.ReadsSave)
    (found : f.nodes[k]? = some n) {args : List Value} (computes : n.op.Computes)
    (unfit : ¬ n.ty.shape.Fits) (values : n.op.operands.map val = args.map some) {count : Nat}
    (emits : Emits f s.slotOf count n dst i cs)
    (free : ∀ x : Nat, f.Held k x → s.slotOf[x]? ≠ some (some dst)) :
    Machine.step plan threshold μ m i = .error .overflow := by
  have operands (x : NodeId) (member : x ∈ n.op.operands) :=
    represents.operands lawful unsaved found free member
  have typed (x : NodeId) (member : x ∈ n.op.operands) (v : Value) (value : val x = some v) :
      v.WellFormed ∧ f.types[x]? = some v.ty := by
    obtain ⟨u, holds⟩ := operands x member
    obtain rfl := Option.some.inj (holds.value.symm.trans value)
    exact ⟨holds.wellFormed, holds.typed⟩
  obtain ⟨x, y, -, -, -, -, -, -, op, -, -, -, -⟩ :=
    (lawful.typed found).matmul_of_not_fits computes values typed unfit
  have rule := lawful.typed found
  rw [op] at operands rule
  obtain ⟨kind, rows, inner, cols, typeX, -, type⟩ := rule.of_matmul
  obtain ⟨u, first⟩ := operands x List.mem_cons_self
  obtain ⟨v, second⟩ := operands y (List.mem_cons_of_mem x (List.mem_singleton_self y))
  cases emits with
  | input op' | constant op' | unary op' | binary op' | addRelu op' | reshape op'
  | transpose op' => cases op.symm.trans op'
  | @matmul _ _ a b _ _ _ op' left right shape =>
    cases op.symm.trans op'
    cases shape.symm.trans typeX
    rw [type] at unfit
    have width : n.ty.shape.dims.getD 1 0 = cols := by rw [type]; rfl
    rw [Machine.step_write rfl]
    simp only [Machine.result, first.read a left, second.read b right, ok_bind, width,
      Kernel.matmul_overflow unfit]
    rfl

theorem Represents.save (represents : Represents f plan μ k s w m val) {w' : Interpreter.Walk}
    {x slot : Nat} {p : Placeholder} (op : n.op = .save x p) (holds : Holds f s.slotOf val m x v)
    (length : s.slotOf.length = k) (settled : Settled f μ (k + 1) (extended val k none))
    (walk : w' = .upTo (extended val k none) (f.nodes.take (k + 1)))
    (saves : w'.saves = w.saves ++ (n.saved? val).toList)
    (source : s.slotOf[x]? = some (some slot)) (slotOf : t.slotOf = s.slotOf ++ [none]) :
    ∃ m', Machine.step plan threshold μ m (.store slot p) = .ok m' ∧
      Represents f plan μ (k + 1) t w' m' (extended val k none) := by
  refine ⟨{ m with stores := m.stores ++ [(p, v.data)] }, ?_,
    settled, walk, represents.length, fun y other u held placed value => ?_, ?_⟩
  · rw [Machine.step_store, holds.read slot source]
    rfl
  · rw [slotOf] at placed
    rcases getElem?_concat placed with old | ⟨-, absurd⟩
    · have before : y < k := length ▸ (List.getElem?_eq_some_iff.1 old).1
      rw [extended, if_neg (Nat.ne_of_lt before)] at value
      exact represents.values y other u (held.of_lt before) old value
    · cases absurd
  · rw [saves, represents.stores, List.map_append]
    simp [Node.saved?, op, holds.value, Value.duplicate_eq holds.wellFormed, Except.toOption]

theorem Represents.put (represents : Represents f plan μ k s w m val) {w' : Interpreter.Walk}
    (plain : n.op.isSave = false) (length : s.slotOf.length = k)
    (settled : Settled f μ (k + 1) (extended val k (some v)))
    (walk : w' = .upTo (extended val k (some v)) (f.nodes.take (k + 1)))
    (saves : w'.saves = w.saves ++ (n.saved? val).toList)
    (slotOf : t.slotOf = s.slotOf ++ [some dst]) (own : plan.slotTypes[dst]? = some n.ty)
    (free : ∀ x : Nat, f.Held k x → s.slotOf[x]? ≠ some (some dst)) :
    Represents f plan μ (k + 1) t w' { m with slots := m.slots.set dst (some v.data) }
      (extended val k (some v)) := by
  refine ⟨settled, walk, (List.length_set ..).trans represents.length,
    fun y other u held placed value => ?_, ?_⟩
  · rw [slotOf] at placed
    rcases getElem?_concat placed with old | ⟨rfl, same⟩
    · have before : y < k := length ▸ (List.getElem?_eq_some_iff.1 old).1
      rw [extended, if_neg (Nat.ne_of_lt before)] at value
      have needed := held.of_lt before
      have apart : dst ≠ other := fun same => free y needed (same ▸ old)
      rw [List.getElem?_set_ne apart]
      exact represents.values y other u needed old value
    · rw [extended, if_pos length] at value
      rw [← Option.some.inj same, ← Option.some.inj value]
      exact List.getElem?_set_self (represents.length ▸ (List.getElem?_eq_some_iff.1 own).1)
  · rw [saves, represents.stores, Node.saved?_of_not_save plain]
    simp

/-- The machine computes what the walk does. -/
theorem Represents.machine_step (represents : Represents f plan μ k s w m val)
    (lawful : f.Lawful declared μ.store) (unsaved : ¬ f.ReadsSave)
    (found : f.nodes[k]? = some n) (float : n.ty.kind.isFloat)
    (yields : Yields μ.load μ.store.read val n.op n.ty (some v)) (type : v.ty = n.ty)
    (emits : Emits f s.slotOf s.constants.length n dst i cs)
    (constants : s.constants ++ cs <+: plan.constants) (own : plan.slotTypes[dst]? = some n.ty)
    (free : ∀ x : Nat, f.Held k x → s.slotOf[x]? ≠ some (some dst)) :
    Machine.step plan threshold μ m i =
      .ok { m with slots := m.slots.set dst (some v.data) } := by
  have entries : ∀ entry, cs[0]? = some entry →
      plan.constants[s.constants.length]? = some entry := by
    intro entry there
    refine getElem?_of_prefix constants ?_
    rw [List.getElem?_append_right (Nat.le_refl _), Nat.sub_self, there]
  rw [Machine.step_write (writes_of_emits emits),
    result_eq emits (lawful.typed found) float own entries
      (fun _ member => represents.operands lawful unsaved found free member) yields type]
  rfl

/-- Lowered node by node, machine and walk go on together. -/
theorem Represents.step (represents : Represents f plan μ k s w m val)
    (lawful : f.Lawful declared μ.store) (good : μ.Lawful) (unsaved : ¬ f.ReadsSave)
    (found : f.nodes[k]? = some n) (float : n.ty.kind.isFloat) (length : s.slotOf.length = k)
    (advances : Advances f s n t) (slotTypes : t.slotTypes <+: plan.slotTypes)
    (constants : t.constants <+: plan.constants) (code : t.code = s.code ++ [i]) :
    Lockstep (fun w' m' => ∃ val', Represents f plan μ (k + 1) t w' m' val')
      (Interpreter.step μ w n) (Machine.step plan threshold μ m i) := by
  obtain ⟨e, stops⟩ | ⟨r, yields, gives⟩ := represents.settled.yields lawful good found unsaved
  · have inside := (List.getElem?_eq_some_iff.1 found).1
    have before : (f.nodes.take k).length = k := List.length_take_of_le (Nat.le_of_lt inside)
    rw [represents.walk, Interpreter.step_of_stops stops fun x member =>
      before.symm ▸ lawful.operand_lt found member]
    cases advances with
    | save op' =>
      cases stops with
      | unread op => cases op.symm.trans op'
      | overflow computes => exact (op' ▸ computes).elim
    | value plain emits slotOf code' slotTypes' constants' typed free =>
      cases List.append_cancel_left (code'.symm.trans code)
      have stopped : Machine.step plan threshold μ m i = .error e := by
        cases stops with
        | unread op failed => exact step_input_error op failed emits
        | overflow computes unfit values =>
          exact represents.machine_overflow lawful unsaved found computes unfit values emits
            (length ▸ free)
      rw [stopped]
      exact .error e
  obtain ⟨w', stepped, walk, saves⟩ := represents.walk_step lawful found yields
  have settled := represents.settled.extend lawful found yields gives
  rw [stepped]
  cases advances with
  | @save x p slot op source slotOf code' =>
    cases List.append_cancel_left (code'.symm.trans code)
    obtain ⟨v, holds⟩ :=
      represents.holds lawful unsaved found (x := x) (by rw [op]; exact List.mem_singleton_self x)
    obtain rfl := yields.of_save (by rw [op]; rfl)
    obtain ⟨m', ran, next⟩ := represents.save op holds length settled walk saves source slotOf
    rw [ran]
    exact .ok ⟨_, next⟩
  | @value dst i' cs plain emits slotOf code' slotTypes' constants' typed free =>
    cases List.append_cancel_left (code'.symm.trans code)
    have own := getElem?_of_prefix slotTypes typed
    rw [length] at free
    rw [constants'] at constants
    cases r with
    | none => cases plain.symm.trans gives
    | some v =>
      rw [represents.machine_step lawful unsaved found float yields gives.2.2 emits constants own
        free]
      exact .ok ⟨_, represents.put plain length settled walk saves slotOf own free⟩

theorem upTo_lockstep (plan : Plan) (threshold : Nat) (lawful : f.Lawful declared μ.store)
    (good : μ.Lawful) (unsaved : ¬ f.ReadsSave) (floats : ∀ n ∈ f.nodes, n.ty.kind.isFloat)
    (inside : k ≤ f.nodes.length) (lowered : upTo f k = .ok s)
    (slotTypes : s.slotTypes <+: plan.slotTypes) (constants : s.constants <+: plan.constants) :
    Lockstep (fun w m => ∃ val, Represents f plan μ k s w m val)
      ((f.nodes.take k).foldlM (Interpreter.step μ) .start)
      (s.code.foldlM (Machine.step plan threshold μ) (.start plan)) := by
  induction k generalizing s with
  | zero =>
    cases lowered
    exact .ok ⟨_, represents_start f plan μ⟩
  | succ k ih =>
    have found := List.getElem?_eq_getElem inside
    rw [upTo_succ found, bind_eq_ok] at lowered
    obtain ⟨t, before, stepped⟩ := lowered
    have settled := lowered_of_upTo (Nat.le_of_succ_le inside) before
    obtain ⟨-, advances⟩ := settled.step found stepped
    have earlier := advances.before
    obtain ⟨i, code⟩ := advances.code
    have first := ih (Nat.le_of_succ_le inside) before (earlier.slotTypes.trans slotTypes)
      (earlier.constants.trans constants)
    rw [code, List.take_add_one, found, List.foldlM_append, List.foldlM_append]
    refine first.bind fun w m ⟨val, represents⟩ => ?_
    simp only [Option.toList_some, List.foldlM_cons, List.foldlM_nil, bind_pure]
    exact represents.step lawful good unsaved found (floats _ (List.mem_of_getElem? found))
      settled.length advances slotTypes constants code

/-- The tape sets aside the elements of what the walk sets aside. -/
theorem execute_lockstep (threshold : Nat) (lawful : f.Lawful declared μ.store)
    (good : μ.Lawful) (floats : ∀ n ∈ f.nodes, n.ty.kind.isFloat)
    (lowered : Plan.ofFunction f = .ok plan) :
    Lockstep (fun w m => m.stores = w.saves.map (fun entry => (entry.1, entry.2.data)) ∧
        ∀ entry ∈ w.saves, entry.2.ty = entry.1.ty)
      (Interpreter.walk f μ) (execute plan threshold μ) := by
  have unsaved := (Plan.ofFunction_ok lawful).1 ⟨plan, lowered⟩
  obtain ⟨s, all, -, instructions, slotTypes, constants, -⟩ := Plan.ofFunction_eq_ok lowered
  have plain := upTo_lockstep plan threshold lawful good unsaved floats (Nat.le_refl _) all
    (slotTypes ▸ List.prefix_rfl) (constants ▸ List.prefix_rfl)
  have freed := (withFrees_lockstep plan threshold μ s.code s.slotTypes.length (.start plan)).symm
  rw [List.take_length] at plain
  rw [Interpreter.walk, execute, instructions]
  refine (plain.trans freed).mono ?_
  rintro w m ⟨m', ⟨val, represents⟩, same⟩
  refine ⟨same.trans represents.stores, fun entry member => ?_⟩
  rw [represents.walk] at member
  exact (represents.settled.saved lawful member).2

theorem run_eq (plan : Plan) (threshold : Nat) (μ : Memory) :
    run plan threshold μ =
      match execute plan threshold μ with
      | .ok m => Interpreter.storeAll m.stores μ
      | .error e => .error e μ := by
  rw [run, state_bind]
  simp only [state_get, state_bind, state_check]
  cases execute plan threshold μ <;> rfl

theorem run_eq_interpreter (lawful : f.Lawful declared μ.store) (good : μ.Lawful)
    (floats : ∀ n ∈ f.nodes, n.ty.kind.isFloat) (lowered : Plan.ofFunction f = .ok plan) :
    run plan threshold μ = Interpreter.run f μ := by
  rw [run_eq, Interpreter.run_eq]
  have both := execute_lockstep threshold lawful good floats lowered
  generalize Interpreter.walk f μ = walked at both
  generalize execute plan threshold μ = executed at both
  cases both with
  | error e => rfl
  | @ok w m results =>
    obtain ⟨stores, types⟩ := results
    dsimp only
    rw [stores, Interpreter.deliverAll_eq_storeAll types]

end Tape

theorem Backend.requireSupport_eq_ok {kind : BackendKind}
    {supports : OpKind → ElementKind → Bool} {f : Function} :
    requireSupport kind supports f = .ok () ↔
      ∀ n ∈ f.nodes, supports n.kind n.ty.kind = true := by
  unfold requireSupport
  split
  next n unsupported =>
    refine ⟨fun absurd => (nomatch absurd), fun all => ?_⟩
    have refused := List.find?_some unsupported
    rw [all n (List.mem_of_find?_eq_some unsupported)] at refused
    cases refused
  next none =>
    rw [List.find?_eq_none] at none
    simpa using none

theorem Cpu.compile_eq_ok {config : Config} {f : Function} {exe : Executable}
    (compiled : Cpu.compile config f .infer = .ok exe) :
    ∃ plan, exe = .tape plan config.parallelThreshold ∧ Plan.ofFunction f = .ok plan ∧
      ∀ n ∈ f.nodes, n.ty.kind.isFloat = true := by
  obtain ⟨plan, lowered, same⟩ := bind_eq_ok.1 compiled
  obtain ⟨u, supported, lowered⟩ := bind_eq_ok.1 lowered
  have made : Plan.ofFunction f = .ok plan := by
    cases planned : Plan.ofFunction f with
    | ok plan' =>
      rw [planned] at lowered
      exact lowered
    | error e =>
      rw [planned] at lowered
      cases lowered
  exact ⟨plan, (Except.ok.inj same).symm, made, Backend.requireSupport_eq_ok.1 supported⟩

/-- Compiled for the CPU, for inference, a function that was built and optimized in any way is
also supported by the interpreter, and on any memory, whatever is bound or not, the tape gives
the interpreter's result, a product that overflows included, and leaves the same memory. -/
theorem tape_refines_interpreter {w : Workspace} (reached : w.Reachable) {f : Function}
    (member : f ∈ w.module.functions) {config : Cpu.Config} {tape : Executable}
    (compiled : Cpu.compile config f .infer = .ok tape) (mode : Mode) :
    ∃ reference, Interpreter.compile f mode = .ok reference ∧
      ∀ c : Context, Memory.Lawful ⟨w.store, c⟩ →
        tape.execute ⟨w.store, c⟩ = reference.execute ⟨w.store, c⟩ := by
  obtain ⟨-, lawful⟩ := reached.lawful.functions f member
  obtain ⟨plan, rfl, lowered, floats⟩ := Cpu.compile_eq_ok compiled
  refine ⟨.interpreted f, bind_eq_ok.2 ⟨(), ?_, rfl⟩, fun c good => ?_⟩
  · refine Backend.requireSupport_eq_ok.2 fun n present => ?_
    rw [Interpreter.supports, floats n present, Bool.or_true]
  · obtain ⟨-, -, name, -⟩ := Plan.ofFunction_eq_ok lowered
    rw [Executable.execute, Executable.execute, state_adaptExcept, state_adaptExcept, name,
      Tape.run_eq_interpreter lawful good floats lowered]

theorem tape_refines_interpreter_shift :
    ∃ tape reference, Cpu.compile {} Shift.function .infer = .ok tape ∧
      Interpreter.compile Shift.function .train = .ok reference ∧
      tape.execute ⟨Shift.workspace.store, Shift.bindings⟩ =
        reference.execute ⟨Shift.workspace.store, Shift.bindings⟩ := by
  cases compiled : Cpu.compile {} Shift.function .infer with
  | error e =>
    have compiles : (Cpu.compile {} Shift.function .infer).isOk = true := by decide
    rw [compiled] at compiles
    cases compiles
  | ok tape =>
    obtain ⟨reference, made, same⟩ :=
      tape_refines_interpreter Shift.reachable Shift.member compiled .train
    exact ⟨tape, reference, rfl, made, same Shift.bindings (Shift.good Shift.held)⟩

end TensorGraph
