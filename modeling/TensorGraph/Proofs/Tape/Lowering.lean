import TensorGraph.Proofs.Run.Progress
import TensorGraph.Proofs.Tape.Slots

/-!
Lowering node by node. `Emits` says which instruction a node becomes, and `Lowered` what holds
after the first `k` nodes. A lawful function is lowered exactly when no node reads a save,
since a save has no slot.
-/

namespace TensorGraph

namespace Lowering

/-- The instruction that leaves the value of `n` in `dst`, and the constants it adds to the
`count` before. -/
inductive Emits (f : Function) (slotOf : List (Option Slot)) (count : Nat) (n : Node)
    (dst : Slot) : Instruction → List (String × Tensor) → Prop where
  | input {p : Placeholder} (op : n.op = .input p) :
      Emits f slotOf count n dst (.loadInput p dst) []
  | constant {t : Tensor} (op : n.op = .constant t) :
      Emits f slotOf count n dst (.loadConstant count dst) [(n.name, t)]
  | unary {g : Unary} {x : Nat} {a : Slot} (op : n.op = .unary g x)
      (source : slotOf[x]? = some (some a)) : Emits f slotOf count n dst (.unary g a dst) []
  | binary {g : Binary} {x y : Nat} {a b : Slot} (op : n.op = .binary g x y)
      (left : slotOf[x]? = some (some a)) (right : slotOf[y]? = some (some b)) :
      Emits f slotOf count n dst (.binary g a b dst) []
  | addRelu {x y : Nat} {a b : Slot} (op : n.op = .addRelu x y)
      (left : slotOf[x]? = some (some a)) (right : slotOf[y]? = some (some b)) :
      Emits f slotOf count n dst (.addRelu a b dst) []
  | matmul {x y : Nat} {a b : Slot} {kind : ElementKind} {m k : Nat} (op : n.op = .matmul x y)
      (left : slotOf[x]? = some (some a)) (right : slotOf[y]? = some (some b))
      (shape : f.types[x]? = some ⟨kind, .matrix m k⟩) :
      Emits f slotOf count n dst (.matmul a b dst m k (n.ty.shape.dims.getD 1 0)) []
  | reshape {x : Nat} {a : Slot} (op : n.op = .reshape x)
      (source : slotOf[x]? = some (some a)) : Emits f slotOf count n dst (.reshape a dst) []
  | transpose {x : Nat} {a : Slot} {rows cols : Nat} (op : n.op = .transpose x)
      (source : slotOf[x]? = some (some a)) (shape : n.ty.shape = .matrix cols rows) :
      Emits f slotOf count n dst (.transpose a dst rows cols) []

variable {declared : List Placeholder} {σ : Store} {f : Function} {s t : Lowering} {n : Node}
  {k : Nat} {dst : Slot} {i : Instruction} {cs : List (String × Tensor)}

theorem operand_eq_ok {x : Nat} {slot : Slot} :
    s.operand n x = .ok slot ↔ s.slotOf[x]? = some (some slot) := by
  unfold operand
  split
  next other found =>
    rw [found]
    simp
  next other =>
    refine ⟨fun absurd => (nomatch absurd), fun found => (other slot found).elim⟩

theorem typeOf_eq_ok {x : Nat} {ty : TensorType} : f.typeOf x = .ok ty ↔ f.types[x]? = some ty := by
  rw [Function.types_getElem?, Function.typeOf]
  cases f.nodes[x]? <;> simp

/-- A node that is no save is lowered to one instruction. -/
theorem emits_of_lowerInto (unsaved : n.op.isSave = false)
    (lowered : lowerInto f n dst s = .ok t) :
    ∃ i cs, Emits f s.slotOf s.constants.length n dst i cs ∧ t.code = s.code ++ [i] ∧
      t.constants = s.constants ++ cs ∧ t.slotOf = s.slotOf ∧ t.slotTypes = s.slotTypes ∧
      t.released = s.released ∧ t.reused = s.reused := by
  unfold lowerInto at lowered
  dsimp only at lowered
  split at lowered
  next p op =>
    cases lowered
    exact ⟨_, _, .input op, rfl, (List.append_nil _).symm, rfl, rfl, rfl, rfl⟩
  next c op =>
    cases lowered
    exact ⟨_, _, .constant op, rfl, rfl, rfl, rfl, rfl, rfl⟩
  next g x op =>
    obtain ⟨a, source, made⟩ := bind_eq_ok.1 lowered
    cases made
    exact ⟨_, _, .unary op (operand_eq_ok.1 source), rfl, (List.append_nil _).symm, rfl, rfl, rfl, rfl⟩
  next g x y op =>
    obtain ⟨a, left, rest⟩ := bind_eq_ok.1 lowered
    obtain ⟨b, right, made⟩ := bind_eq_ok.1 rest
    cases made
    exact ⟨_, _, .binary op (operand_eq_ok.1 left) (operand_eq_ok.1 right), rfl,
      (List.append_nil _).symm, rfl, rfl, rfl, rfl⟩
  next x y op =>
    obtain ⟨a, left, rest⟩ := bind_eq_ok.1 lowered
    obtain ⟨b, right, made⟩ := bind_eq_ok.1 rest
    cases made
    exact ⟨_, _, .addRelu op (operand_eq_ok.1 left) (operand_eq_ok.1 right), rfl,
      (List.append_nil _).symm, rfl, rfl, rfl, rfl⟩
  next x y op =>
    obtain ⟨ty, typed, rest⟩ := bind_eq_ok.1 lowered
    obtain ⟨⟨m, k⟩, dims, rest⟩ := bind_eq_ok.1 rest
    obtain ⟨a, left, rest⟩ := bind_eq_ok.1 rest
    obtain ⟨b, right, made⟩ := bind_eq_ok.1 rest
    cases made
    obtain ⟨kind, shape⟩ := ty
    obtain rfl := Shape.matrixDims_eq_ok.1 dims
    exact ⟨_, _, .matmul op (operand_eq_ok.1 left) (operand_eq_ok.1 right) (typeOf_eq_ok.1 typed),
      rfl, (List.append_nil _).symm, rfl, rfl, rfl, rfl⟩
  next x op =>
    obtain ⟨a, source, made⟩ := bind_eq_ok.1 lowered
    cases made
    exact ⟨_, _, .reshape op (operand_eq_ok.1 source), rfl, (List.append_nil _).symm, rfl, rfl, rfl, rfl⟩
  next x op =>
    obtain ⟨⟨cols, rows⟩, dims, rest⟩ := bind_eq_ok.1 lowered
    obtain ⟨a, source, made⟩ := bind_eq_ok.1 rest
    cases made
    exact ⟨_, _, .transpose op (operand_eq_ok.1 source) (Shape.matrixDims_eq_ok.1 dims), rfl,
      (List.append_nil _).symm, rfl, rfl, rfl, rfl⟩
  next x p op =>
    rw [op] at unsaved
    cases unsaved

theorem lowerInto_ok (typed : n.op.HasType f.types n.ty) (unsaved : n.op.isSave = false)
    (placed : ∀ x ∈ n.op.operands, ∃ slot, s.slotOf[x]? = some (some slot)) (dst : Slot) :
    ∃ t, lowerInto f n dst s = .ok t := by
  have one {x : Nat} (operands : n.op.operands = [x]) : ∃ a, s.operand n x = .ok a :=
    (placed x (by rw [operands]; exact List.mem_singleton_self x)).imp fun a => operand_eq_ok.2
  have two {x y : Nat} (operands : n.op.operands = [x, y]) :
      (∃ a, s.operand n x = .ok a) ∧ ∃ b, s.operand n y = .ok b :=
    ⟨(placed x (by simp [operands])).imp fun a => operand_eq_ok.2,
      (placed y (by simp [operands])).imp fun b => operand_eq_ok.2⟩
  unfold lowerInto
  dsimp only
  split
  next p op => exact ⟨_, rfl⟩
  next c op => exact ⟨_, rfl⟩
  next g x op =>
    obtain ⟨a, source⟩ := one (x := x) (by rw [op]; rfl)
    exact ⟨_, bind_eq_ok.2 ⟨a, source, rfl⟩⟩
  next g x y op =>
    obtain ⟨⟨a, left⟩, b, right⟩ := two (x := x) (y := y) (by rw [op]; rfl)
    exact ⟨_, bind_eq_ok.2 ⟨a, left, bind_eq_ok.2 ⟨b, right, rfl⟩⟩⟩
  next x y op =>
    obtain ⟨⟨a, left⟩, b, right⟩ := two (x := x) (y := y) (by rw [op]; rfl)
    exact ⟨_, bind_eq_ok.2 ⟨a, left, bind_eq_ok.2 ⟨b, right, rfl⟩⟩⟩
  next x y op =>
    obtain ⟨⟨a, left⟩, b, right⟩ := two (x := x) (y := y) (by rw [op]; rfl)
    obtain ⟨kind, m, k, -, shape, -⟩ := (op ▸ typed).of_matmul
    exact ⟨_, bind_eq_ok.2 ⟨_, typeOf_eq_ok.2 shape, bind_eq_ok.2 ⟨(m, k),
      Shape.matrixDims_eq_ok.2 rfl, bind_eq_ok.2 ⟨a, left, bind_eq_ok.2 ⟨b, right, rfl⟩⟩⟩⟩⟩
  next x op =>
    obtain ⟨a, source⟩ := one (x := x) (by rw [op]; rfl)
    exact ⟨_, bind_eq_ok.2 ⟨a, source, rfl⟩⟩
  next x op =>
    obtain ⟨a, source⟩ := one (x := x) (by rw [op]; rfl)
    obtain ⟨kind, rows, cols, -, type⟩ := (op ▸ typed).of_transpose
    exact ⟨_, bind_eq_ok.2 ⟨(cols, rows), Shape.matrixDims_eq_ok.2 (congrArg (·.shape) type),
      bind_eq_ok.2 ⟨a, source, rfl⟩⟩⟩
  next x p op =>
    rw [op] at unsaved
    cases unsaved

theorem Emits.operand {slotOf : List (Option Slot)} {count : Nat}
    (emits : Emits f slotOf count n dst i cs) {x : Nat} (member : x ∈ n.op.operands) :
    ∃ slot, slotOf[x]? = some (some slot) := by
  cases emits with
  | input op | constant op =>
    rw [op] at member
    cases member
  | unary op source | reshape op source | transpose op source =>
    rw [op] at member
    rw [List.mem_singleton.1 member]
    exact ⟨_, source⟩
  | binary op left right | addRelu op left right | matmul op left right =>
    rw [op] at member
    rcases List.mem_cons.1 member with rfl | member
    · exact ⟨_, left⟩
    · rw [List.mem_singleton.1 member]
      exact ⟨_, right⟩

/-- What is left after the instruction of node `id`, before its operands are released: its slot
is recorded, and released at once if no node reads it. -/
def placed (f : Function) (id : NodeId) (n : Node) (dst : Slot) (s : Lowering) : Lowering :=
  if (f.lastUse? id).isNone then { s with slotOf := s.slotOf ++ [some dst] }.release n.ty dst
  else { s with slotOf := s.slotOf ++ [some dst] }

theorem step_save_eq_ok {x : Nat} {p : Placeholder} (op : n.op = .save x p) :
    step f s n = .ok t ↔ ∃ slot, s.slotOf[x]? = some (some slot) ∧
      t = releaseOperands f s.slotOf.length n
        { s with code := s.code ++ [.store slot p], slotOf := s.slotOf ++ [none] } := by
  unfold step
  simp only [op]
  rw [bind_eq_ok]
  constructor
  · rintro ⟨slot, source, same⟩
    cases same
    exact ⟨slot, operand_eq_ok.1 source, rfl⟩
  · rintro ⟨slot, source, rfl⟩
    exact ⟨slot, operand_eq_ok.2 source, rfl⟩

theorem step_eq_ok (unsaved : n.op.isSave = false) :
    step f s n = .ok t ↔ ∃ u, lowerInto f n (s.take n.ty).1 (s.take n.ty).2 = .ok u ∧
      t = releaseOperands f s.slotOf.length n
        (placed f s.slotOf.length n (s.take n.ty).1 u) := by
  have steps : step f s n = (do
      let u ← lowerInto f n (s.take n.ty).1 (s.take n.ty).2
      return releaseOperands f s.slotOf.length n
        (placed f s.slotOf.length n (s.take n.ty).1 u)) := by
    unfold step
    cases op : n.op with
    | save x p =>
      rw [op] at unsaved
      cases unsaved
    | _ => rfl
  rw [steps, bind_eq_ok]
  constructor
  · rintro ⟨u, lowered, same⟩
    cases same
    exact ⟨u, lowered, rfl⟩
  · rintro ⟨u, lowered, rfl⟩
    exact ⟨u, lowered, rfl⟩

/-- What one node adds. A value is put where no value that is still needed sits. -/
inductive Advances (f : Function) (s : Lowering) (n : Node) (t : Lowering) : Prop where
  | save {x : Nat} {p : Placeholder} {slot : Slot} (op : n.op = .save x p)
      (source : s.slotOf[x]? = some (some slot)) (slotOf : t.slotOf = s.slotOf ++ [none])
      (code : t.code = s.code ++ [.store slot p]) (slotTypes : t.slotTypes = s.slotTypes)
      (constants : t.constants = s.constants)
  | value {dst : Slot} {i : Instruction} {cs : List (String × Tensor)}
      (unsaved : n.op.isSave = false) (emits : Emits f s.slotOf s.constants.length n dst i cs)
      (slotOf : t.slotOf = s.slotOf ++ [some dst]) (code : t.code = s.code ++ [i])
      (slotTypes : ∃ more, t.slotTypes = s.slotTypes ++ more)
      (constants : t.constants = s.constants ++ cs) (typed : t.slotTypes[dst]? = some n.ty)
      (free : ∀ i : Nat, f.Held s.slotOf.length i → s.slotOf[i]? ≠ some (some dst))

/-- The slot of node `id` if no node reads it, as a list of released slots. -/
def unread (f : Function) (id : NodeId) (ty : TensorType) (dst : Slot) :
    List (TensorType × Slot) :=
  if (f.lastUse? id).isNone then [(ty, dst)] else []

theorem placed_eq (f : Function) (id : NodeId) (n : Node) (dst : Slot) (s : Lowering) :
    placed f id n dst s = { s with
      slotOf := s.slotOf ++ [some dst], released := unread f id n.ty dst ++ s.released } := by
  unfold placed unread
  split <;> rfl

theorem Sound.put (sound : Sound f s (f.Held k)) (length : s.slotOf.length = k)
    (found : f.nodes[k]? = some n) (typed : s.slotTypes[dst]? = some n.ty)
    (fresh : dst ∉ s.released.map (·.2))
    (free : ∀ i : Nat, f.Held k i → s.slotOf[i]? ≠ some (some dst)) :
    Sound f (placed f k n dst s) fun i => f.Held k i ∨ i = k ∧ (f.lastUse? i).isSome := by
  subst length
  have pushed := sound.push_some found typed fresh free
  unfold Lowering.placed
  split
  next unread =>
    -- The value itself is not needed any more.
    refine ((pushed.mono fun i => Or.inl).release typed fresh fun i held same => ?_).mono
      fun i held => ?_
    · rcases getElem?_concat same with old | ⟨rfl, -⟩
      · exact free i held old
      · exact Nat.lt_irrefl _ held.1
    · rcases held with held | ⟨rfl, read⟩
      · exact held
      · rw [Option.isNone_iff_eq_none.1 unread] at read
        cases read
  next => exact pushed.mono fun i held => held.imp_right fun last => last.1

theorem Sound.step_save (sound : Sound f s (f.Held k)) (length : s.slotOf.length = k)
    (operands : ∀ x ∈ n.op.operands, f.Held k x) {x : Nat} {p : Placeholder}
    (op : n.op = .save x p) (stepped : Lowering.step f s n = .ok t) :
    Sound f t (f.Held (k + 1)) ∧ t.slotOf.length = k + 1 ∧ Advances f s n t := by
  obtain ⟨slot, source, rfl⟩ := (step_save_eq_ok op).1 stepped
  rw [length]
  have pushed : Sound f { s with code := s.code ++ [.store slot p], slotOf := s.slotOf ++ [none] }
      fun i => f.Held k i ∨ i = s.slotOf.length :=
    sound.push_none.congr rfl rfl rfl
  have released := pushed.releaseOperands k n fun x member => .inl (operands x member)
  obtain ⟨r, same⟩ := exists_releaseOperands f k n
    { s with code := s.code ++ [.store slot p], slotOf := s.slotOf ++ [none] }
  rw [same] at released ⊢
  refine ⟨released.mono fun i held => ?_, ?_, .save op source rfl rfl rfl rfl⟩
  · rw [length]
    exact ⟨held.of_succ.1, fun here => held.of_succ.2.2 here.2⟩
  · simp [length]

theorem Sound.step_value (sound : Sound f s (f.Held k)) (length : s.slotOf.length = k)
    (operands : ∀ x ∈ n.op.operands, f.Held k x) (found : f.nodes[k]? = some n)
    (unsaved : n.op.isSave = false) (stepped : Lowering.step f s n = .ok t) :
    Sound f t (f.Held (k + 1)) ∧ t.slotOf.length = k + 1 ∧ Advances f s n t := by
  obtain ⟨u, lowered, rfl⟩ := (step_eq_ok unsaved).1 stepped
  rw [length]
  generalize taken : s.take n.ty = entry at lowered
  obtain ⟨dst, v⟩ := entry
  obtain ⟨sound₁, typed, fresh, free, ⟨more, added⟩, slotOf, code, constants⟩ :=
    sound.take n.ty taken
  obtain ⟨i, cs, emits, code', constants', slotOf', slotTypes', released', -⟩ :=
    emits_of_lowerInto unsaved lowered
  have sound₂ : Sound f u (f.Held k) := sound₁.congr slotOf' slotTypes' released'
  rw [slotOf, constants] at emits
  rw [slotOf] at slotOf'
  have sound₃ := sound₂.put (slotOf' ▸ length) found (slotTypes' ▸ typed)
    (released' ▸ fresh) (slotOf' ▸ free)
  have released := sound₃.releaseOperands k n fun x member => .inl (operands x member)
  obtain ⟨r, same⟩ := exists_releaseOperands f k n (placed f k n dst u)
  rw [same, placed_eq] at released ⊢
  refine ⟨released.mono fun i held => ?_, ?_, .value unsaved emits ?_ ?_ ⟨more, ?_⟩ ?_ ?_
    (length.symm ▸ free)⟩
  · obtain ⟨before, read, later⟩ := held.of_succ
    exact ⟨before.imp_right fun last => ⟨last, read⟩, fun here => later here.2⟩
  · simp [slotOf', length]
  · simp [slotOf']
  · simp [code', code]
  · simp [slotTypes', added]
  · simp [constants', constants]
  · simpa [slotTypes'] using typed

theorem take_slotOf (s : Lowering) (ty : TensorType) : (s.take ty).2.slotOf = s.slotOf := by
  unfold take
  split <;> rfl

theorem placed_of_step (stepped : Lowering.step f s n = .ok t) {x : Nat}
    (member : x ∈ n.op.operands) : ∃ slot, s.slotOf[x]? = some (some slot) := by
  cases unsaved : n.op.isSave with
  | true =>
    obtain ⟨y, p, op⟩ := Op.exists_of_isSave unsaved
    obtain ⟨slot, source, -⟩ := (step_save_eq_ok op).1 stepped
    rw [op] at member
    rw [List.mem_singleton.1 member]
    exact ⟨slot, source⟩
  | false =>
    obtain ⟨u, lowered, -⟩ := (step_eq_ok unsaved).1 stepped
    obtain ⟨i, cs, emits, -⟩ := emits_of_lowerInto unsaved lowered
    rw [take_slotOf] at emits
    exact emits.operand member

theorem Sound.step (sound : Sound f s (f.Held k)) (length : s.slotOf.length = k)
    (found : f.nodes[k]? = some n) (stepped : Lowering.step f s n = .ok t) :
    Sound f t (f.Held (k + 1)) ∧ t.slotOf.length = k + 1 ∧ Advances f s n t := by
  have operands : ∀ x ∈ n.op.operands, f.Held k x := by
    intro x member
    obtain ⟨slot, placed⟩ := placed_of_step stepped member
    exact ⟨length ▸ (List.getElem?_eq_some_iff.1 placed).1, Function.le_lastUse? found member⟩
  cases unsaved : n.op.isSave with
  | true =>
    obtain ⟨x, p, op⟩ := Op.exists_of_isSave unsaved
    exact sound.step_save length operands op stepped
  | false => exact sound.step_value length operands found unsaved stepped

/-- The first `k` nodes lowered. -/
def upTo (f : Function) (k : Nat) : Except Error Lowering :=
  (f.nodes.take k).foldlM (Lowering.step f) .start

theorem upTo_succ (found : f.nodes[k]? = some n) :
    upTo f (k + 1) = (do step f (← upTo f k) n) := by
  rw [upTo, List.take_add_one, found, List.foldlM_append, upTo]
  simp only [Option.toList_some, List.foldlM_cons, List.foldlM_nil, bind_pure]

/-- What holds after the first `k` nodes: values have slots, saves do not. -/
structure Lowered (f : Function) (k : Nat) (s : Lowering) : Prop where
  length : s.slotOf.length = k
  sound : Sound f s (f.Held k)
  values : ∀ (i : Nat) (n : Node), i < k → f.nodes[i]? = some n →
    ((∃ slot, s.slotOf[i]? = some (some slot)) ↔ n.op.isSave = false)

theorem Lowered.start (f : Function) : Lowered f 0 .start :=
  ⟨rfl, .start f _, fun i _ bound => (Nat.not_lt_zero i bound).elim⟩

theorem Advances.slotOf (advances : Advances f s n t) :
    ∃ o : Option Slot, t.slotOf = s.slotOf ++ [o] ∧ (o.isSome ↔ n.op.isSave = false) := by
  cases advances with
  | save op source slotOf => exact ⟨none, slotOf, by simp [op, Op.isSave]⟩
  | value unsaved emits slotOf => exact ⟨some _, slotOf, by simp [unsaved]⟩

theorem Lowered.step (lowered : Lowered f k s) (found : f.nodes[k]? = some n)
    (stepped : Lowering.step f s n = .ok t) : Lowered f (k + 1) t ∧ Advances f s n t := by
  obtain ⟨sound, length, advances⟩ := lowered.sound.step lowered.length found stepped
  refine ⟨⟨length, sound, fun i m bound there => ?_⟩, advances⟩
  obtain ⟨o, slotOf, value⟩ := advances.slotOf
  rw [slotOf]
  rcases Nat.lt_succ_iff_lt_or_eq.1 bound with before | rfl
  · rw [List.getElem?_append_left (lowered.length.symm ▸ before)]
    exact lowered.values i m before there
  · rw [Option.some.inj (there.symm.trans found), ← value, ← lowered.length,
      List.getElem?_concat_length, Option.isSome_iff_exists]
    simp

theorem lowered_of_upTo (inside : k ≤ f.nodes.length) (lowered : upTo f k = .ok s) :
    Lowered f k s := by
  induction k generalizing s with
  | zero =>
    cases lowered
    exact .start f
  | succ k ih =>
    have found := List.getElem?_eq_getElem inside
    rw [upTo_succ found, bind_eq_ok] at lowered
    obtain ⟨t, before, stepped⟩ := lowered
    exact ((ih (Nat.le_of_succ_le inside) before).step found stepped).1

/-- What holds at the start, and after each node if it held before, holds throughout. -/
theorem upTo_induction {P : Nat → Lowering → Prop} (start : P 0 .start)
    (next : ∀ (k : Nat) (s : Lowering) (n : Node) (t : Lowering), Lowered f k s →
      f.nodes[k]? = some n → Lowering.step f s n = .ok t → P k s → P (k + 1) t)
    (inside : k ≤ f.nodes.length) (lowered : upTo f k = .ok s) : P k s := by
  induction k generalizing s with
  | zero =>
    cases lowered
    exact start
  | succ k ih =>
    have found := List.getElem?_eq_getElem inside
    rw [upTo_succ found, bind_eq_ok] at lowered
    obtain ⟨t, before, stepped⟩ := lowered
    have earlier := Nat.le_of_succ_le inside
    exact next k t _ s (lowered_of_upTo earlier before) found stepped (ih earlier before)

theorem Lowered.step_ok (lowered : Lowered f k s) (lawful : f.Lawful declared σ)
    (found : f.nodes[k]? = some n) :
    (∃ t, Lowering.step f s n = .ok t) ↔
      ∀ x ∈ n.op.operands, ∃ slot, s.slotOf[x]? = some (some slot) := by
  constructor
  · rintro ⟨t, stepped⟩ x member
    exact placed_of_step stepped member
  · intro slots
    cases unsaved : n.op.isSave with
    | true =>
      obtain ⟨x, p, op⟩ := Op.exists_of_isSave unsaved
      obtain ⟨slot, source⟩ := slots x (by rw [op]; exact List.mem_singleton_self x)
      exact ⟨_, (step_save_eq_ok op).2 ⟨slot, source, rfl⟩⟩
    | false =>
      obtain ⟨-, -, -, -, -, slotOf, -⟩ := lowered.sound.take n.ty (rfl : s.take n.ty = s.take n.ty)
      obtain ⟨u, made⟩ := lowerInto_ok (lawful.typed found) unsaved
        (fun x member => slotOf.symm ▸ slots x member) (s.take n.ty).1
      exact ⟨_, (step_eq_ok unsaved).2 ⟨u, made, rfl⟩⟩

theorem Advances.code (advances : Advances f s n t) : ∃ i, t.code = s.code ++ [i] := by
  cases advances with
  | save op source slotOf code => exact ⟨_, code⟩
  | value unsaved emits slotOf code => exact ⟨_, code⟩

theorem length_code (inside : k ≤ f.nodes.length) (lowered : upTo f k = .ok s) :
    s.code.length = k := by
  refine upTo_induction (P := fun k s => s.code.length = k) rfl
    (fun k s n t settled found stepped before => ?_) inside lowered
  obtain ⟨i, code⟩ := (settled.step found stepped).2.code
  simp [code, before]

/-- What lowering adds to, and never takes from. -/
structure Prefix (s t : Lowering) : Prop where
  slotOf : s.slotOf <+: t.slotOf
  slotTypes : s.slotTypes <+: t.slotTypes
  constants : s.constants <+: t.constants
  code : s.code <+: t.code

theorem Prefix.refl (s : Lowering) : Prefix s s :=
  ⟨List.prefix_rfl, List.prefix_rfl, List.prefix_rfl, List.prefix_rfl⟩

theorem Prefix.trans {s t u : Lowering} (first : Prefix s t) (second : Prefix t u) : Prefix s u :=
  ⟨first.slotOf.trans second.slotOf, first.slotTypes.trans second.slotTypes,
    first.constants.trans second.constants, first.code.trans second.code⟩

theorem Advances.before (advances : Advances f s n t) : Prefix s t := by
  cases advances with
  | save op source slotOf code slotTypes constants =>
    constructor <;> simp [slotOf, code, slotTypes, constants]
  | value unsaved emits slotOf code slotTypes constants =>
    obtain ⟨more, slotTypes⟩ := slotTypes
    constructor <;> simp [slotOf, code, slotTypes, constants]

theorem Advances.constants_eq (advances : Advances f s n t) :
    t.constants = s.constants ++ (n.constant?.map (n.name, ·)).toList := by
  cases advances with
  | save op source slotOf code slotTypes constants => simp [constants, Node.constant?, op]
  | value unsaved emits slotOf code slotTypes constants =>
    rw [constants]
    cases emits <;> simp_all [Node.constant?]

theorem exists_upTo {j : Nat} (inside : j ≤ f.nodes.length) (lowered : upTo f j = .ok t)
    (before : k ≤ j) : ∃ s, upTo f k = .ok s ∧ Prefix s t := by
  induction before generalizing t with
  | refl => exact ⟨t, lowered, .refl t⟩
  | @step j before ih =>
    have found := List.getElem?_eq_getElem inside
    rw [upTo_succ found, bind_eq_ok] at lowered
    obtain ⟨u, first, stepped⟩ := lowered
    obtain ⟨s, made, earlier⟩ := ih (Nat.le_of_succ_le inside) first
    have settled := lowered_of_upTo (Nat.le_of_succ_le inside) first
    exact ⟨s, made, earlier.trans (settled.step found stepped).2.before⟩

theorem exists_step (done : upTo f f.nodes.length = .ok t) (found : f.nodes[k]? = some n) :
    ∃ s u, Lowered f k s ∧ s.code.length = k ∧ Lowering.step f s n = .ok u ∧ Prefix u t := by
  have inside := (List.getElem?_eq_some_iff.1 found).1
  obtain ⟨u, next, before⟩ := exists_upTo (Nat.le_refl _) done inside
  rw [upTo_succ found, bind_eq_ok] at next
  obtain ⟨s, first, stepped⟩ := next
  have early := Nat.le_of_lt inside
  exact ⟨s, u, lowered_of_upTo early first, length_code early first, stepped, before⟩

theorem upTo_ok (lawful : f.Lawful declared σ) :
    (∃ s, upTo f f.nodes.length = .ok s) ↔ ¬ f.ReadsSave := by
  constructor
  · rintro ⟨t, done⟩ ⟨n, present, x, member, m, source, save⟩
    obtain ⟨k, found⟩ := List.mem_iff_getElem?.1 present
    have later := lawful.operand_lt found member
    obtain ⟨s, u, lowered, -, stepped, -⟩ := exists_step done found
    have slot := (lowered.step_ok lawful found).1 ⟨u, stepped⟩ x member
    have unsaved := (lowered.values x m later source).1 slot
    rw [save] at unsaved
    cases unsaved
  · intro unsaved
    suffices all : ∀ k ≤ f.nodes.length, ∃ s, upTo f k = .ok s from all _ (Nat.le_refl _)
    intro k inside
    induction k with
    | zero => exact ⟨.start, rfl⟩
    | succ k ih =>
      obtain ⟨s, first⟩ := ih (Nat.le_of_succ_le inside)
      have found := List.getElem?_eq_getElem inside
      have lowered := lowered_of_upTo (Nat.le_of_succ_le inside) first
      obtain ⟨t, stepped⟩ := (lowered.step_ok lawful found).2 fun x member => by
        have later := lawful.operand_lt found member
        have source := List.getElem?_eq_getElem
          (Nat.lt_trans later (List.getElem?_eq_some_iff.1 found).1)
        refine (lowered.values x _ later source).2 ?_
        rw [← Bool.not_eq_true]
        exact fun save => unsaved ⟨_, List.mem_of_getElem? found, x, member, _, source, save⟩
      exact ⟨t, by rw [upTo_succ found, first]; exact stepped⟩

theorem operand_ne_overflow (s : Lowering) (n : Node) (x : NodeId) :
    s.operand n x ≠ .error .overflow := by
  unfold operand
  split <;> nofun

theorem lowerInto_ne_overflow (f : Function) (n : Node) (dst : Slot) (s : Lowering) :
    lowerInto f n dst s ≠ .error .overflow := by
  have slot := s.operand_ne_overflow n
  have matrix (shape : Shape) : shape.matrixDims ≠ .error .overflow := by
    unfold Shape.matrixDims
    split <;> nofun
  have type (x : NodeId) : f.typeOf x ≠ .error .overflow := by
    unfold Function.typeOf
    split <;> nofun
  unfold lowerInto
  split
  next => nofun
  next => nofun
  next g x _ => exact bind_ne_overflow (slot x) fun _ => nofun
  next g x y _ => exact bind_ne_overflow (slot x) fun _ => bind_ne_overflow (slot y) fun _ => nofun
  next x y _ => exact bind_ne_overflow (slot x) fun _ => bind_ne_overflow (slot y) fun _ => nofun
  next x y _ =>
    exact bind_ne_overflow (type x) fun _ => bind_ne_overflow (matrix _) fun _ =>
      bind_ne_overflow (slot x) fun _ => bind_ne_overflow (slot y) fun _ => nofun
  next x _ => exact bind_ne_overflow (slot x) fun _ => nofun
  next x _ =>
    exact bind_ne_overflow (matrix _) fun _ => bind_ne_overflow (slot x) fun _ => nofun
  next x p _ => exact bind_ne_overflow (slot x) fun _ => nofun

theorem step_ne_overflow (f : Function) (s : Lowering) (n : Node) :
    step f s n ≠ .error .overflow := by
  unfold step
  dsimp only
  split
  next x p _ => exact bind_ne_overflow (s.operand_ne_overflow n x) fun _ => nofun
  next => exact bind_ne_overflow (lowerInto_ne_overflow f n _ _) fun _ => nofun

end Lowering

open Lowering

theorem Plan.ofFunction_eq_ok {f : Function} {plan : Plan}
    (lowered : Plan.ofFunction f = .ok plan) :
    ∃ s, upTo f f.nodes.length = .ok s ∧ plan.name = f.name ∧
      plan.instructions = Tape.withFrees s.code s.slotTypes.length ∧
      plan.slotTypes = s.slotTypes ∧ plan.constants = s.constants ∧
      plan.stats = ⟨plan.instructions.length, f.nodes.length, s.slotTypes.length, s.reused,
        plan.instructions.countP (·.isFree), s.fused⟩ := by
  obtain ⟨s, made, same⟩ := bind_eq_ok.1 lowered
  cases same
  refine ⟨s, ?_, rfl, rfl, rfl, rfl, rfl⟩
  rw [upTo, List.take_length]
  exact made

/-- The constants of a function under the names of their nodes, in node order. -/
def Function.namedConstants (f : Function) : List (String × Tensor) :=
  f.nodes.filterMap fun n => n.constant?.map (n.name, ·)

theorem Plan.constants_eq {f : Function} {plan : Plan} (lowered : Plan.ofFunction f = .ok plan) :
    plan.constants = f.namedConstants := by
  obtain ⟨s, made, -, -, -, constants, -⟩ := Plan.ofFunction_eq_ok lowered
  have each := upTo_induction (P := fun k s =>
    s.constants = (f.nodes.take k).filterMap fun n => n.constant?.map (n.name, ·)) rfl
    (fun k s n t lowered found stepped before => by
      rw [(lowered.step found stepped).2.constants_eq, before, List.take_add_one, found,
        List.filterMap_append]
      rfl) (Nat.le_refl _) made
  rw [constants, each, List.take_length, Function.namedConstants]

/-- A lawful function has a plan exactly when none of its nodes reads a save. -/
theorem Plan.ofFunction_ok {declared : List Placeholder} {σ : Store} {f : Function}
    (lawful : f.Lawful declared σ) : (∃ plan, Plan.ofFunction f = .ok plan) ↔ ¬ f.ReadsSave := by
  rw [← upTo_ok lawful]
  constructor
  · rintro ⟨plan, lowered⟩
    obtain ⟨s, made, -⟩ := Plan.ofFunction_eq_ok lowered
    exact ⟨s, made⟩
  · rintro ⟨s, made⟩
    rw [upTo, List.take_length] at made
    exact ⟨_, bind_eq_ok.2 ⟨s, made, rfl⟩⟩

/-- Lowering computes no sizes. -/
theorem Plan.ofFunction_ne_overflow (f : Function) : Plan.ofFunction f ≠ .error .overflow := by
  have steps (nodes : List Node) (s : Lowering) :
      nodes.foldlM (Lowering.step f) s ≠ .error .overflow := by
    induction nodes generalizing s with
    | nil => nofun
    | cons n rest ih => exact bind_ne_overflow (Lowering.step_ne_overflow f s n) ih
  exact bind_ne_overflow (steps f.nodes .start) fun _ => nofun

end TensorGraph
