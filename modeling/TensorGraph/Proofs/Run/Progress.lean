import TensorGraph.Proofs.Run.Delivery

/-!
Progress of a walk through a lawful function. When no node reads a save, only reading a placeholder
can fail, and counting the elements of a product; every value has its node's type. When some node
reads a save, no walk succeeds, since a save leaves no value to read.
-/

namespace TensorGraph

/-- What a node may leave: nothing if it is a save, else a well-formed value of its type. -/
def Node.Gives (n : Node) : Option Value → Prop
  | none => n.op.isSave = true
  | some v => n.op.isSave = false ∧ v.WellFormed ∧ v.ty = n.ty

/-- Whether some node's operand is a save. -/
def Function.ReadsSave (f : Function) : Prop :=
  ∃ n ∈ f.nodes, ∃ x ∈ n.op.operands, ∃ m, f.nodes[x]? = some m ∧ m.op.isSave = true

/-- Why a node has no value, given values of its operands: it reads a placeholder that cannot be
read, or its elements cannot be counted. -/
inductive Node.Stops (μ : Memory) (val : NodeId → Option Value) (n : Node) : Error → Prop where
  | unread {p : Placeholder} {e : Error} (input : n.op = .input p) (failed : μ.load p = .error e) :
      n.Stops μ val e
  | overflow {args : List Value} (computes : n.op.Computes) (unfit : ¬ n.ty.shape.Fits)
      (values : n.op.operands.map val = args.map some)
      (failed : n.op.evaluate .empty args n.ty = .error .overflow) : n.Stops μ val .overflow

variable {declared : List Placeholder} {f : Function} {μ : Memory} {k : Nat}
  {val : NodeId → Option Value} {n : Node}

theorem Memory.Lawful.load (lawful : μ.Lawful) {p : Placeholder} {v : Value}
    (loaded : μ.load p = .ok v) : v.WellFormed ∧ v.ty = p.ty := by
  obtain ⟨t, binds, rfl⟩ := Memory.load_eq_ok.1 loaded
  obtain ⟨wellFormed, stored⟩ := (lawful p.id t binds.1).read
  exact ⟨wellFormed, stored.trans binds.2⟩

/-- The first `k` nodes have a valuation, of the right types. -/
structure Settled (f : Function) (μ : Memory) (k : Nat) (val : NodeId → Option Value) : Prop where
  evaluates : Evaluates μ.load μ.store.read (f.nodes.take k) val
  gives : ∀ (i : Nat) (n : Node), i < k → f.nodes[i]? = some n → n.Gives (val i)

theorem Settled.start (f : Function) (μ : Memory) (val : NodeId → Option Value) :
    Settled f μ 0 val :=
  ⟨fun i n found => by simp at found, fun i n bound => (Nat.not_lt_zero i bound).elim⟩

theorem Settled.operand (settled : Settled f μ k val) (lawful : f.Lawful declared μ.store)
    (found : f.nodes[k]? = some n) (unsaved : ¬ f.ReadsSave) {x : Nat}
    (member : x ∈ n.op.operands) :
    ∃ v, val x = some v ∧ v.WellFormed ∧ (f.types.take k)[x]? = some v.ty := by
  have later := lawful.operand_lt found member
  have source := List.getElem?_eq_getElem
    (Nat.lt_trans later (List.getElem?_eq_some_iff.1 found).1)
  have gives := settled.gives x _ later source
  cases value : val x with
  | none =>
    rw [value] at gives
    exact (unsaved ⟨n, List.mem_of_getElem? found, x, member, _, source, gives⟩).elim
  | some v =>
    rw [value] at gives
    obtain ⟨-, wellFormed, type⟩ := gives
    refine ⟨v, rfl, wellFormed, ?_⟩
    rw [List.getElem?_take_of_lt later, Function.types_getElem?, source, type]
    rfl

/-- A node either stops the walk, or yields what it may leave. -/
theorem Settled.yields (settled : Settled f μ k val) (lawful : f.Lawful declared μ.store)
    (good : μ.Lawful) (found : f.nodes[k]? = some n) (unsaved : ¬ f.ReadsSave) :
    (∃ e, n.Stops μ val e) ∨ ∃ r, Yields μ.load μ.store.read val n.op n.ty r ∧ n.Gives r := by
  have node := lawful.nodes k n found
  have operand {x : Nat} (member : x ∈ n.op.operands) :=
    settled.operand lawful found unsaved member
  by_cases computes : n.op.Computes
  · obtain ⟨args, values⟩ := exists_map_eq_some fun x member =>
      (operand member).imp fun v value => value.1
    have typed (x : NodeId) (member : x ∈ n.op.operands) (v : Value) (value : val x = some v) :
        v.WellFormed ∧ (f.types.take k)[x]? = some v.ty := by
      obtain ⟨u, value', lawful⟩ := operand member
      rwa [← Option.some.inj (value'.symm.trans value)]
    by_cases fits : n.ty.shape.Fits
    · obtain ⟨v, made, wellFormed, type⟩ :=
        node.typed.evaluate computes .empty values typed fits
      exact .inr ⟨some v, .computed computes values made, n.op.isSave_of_computes computes,
        wellFormed, type⟩
    · have failed := node.typed.evaluate_overflow computes .empty values typed fits
      exact .inl ⟨.overflow, .overflow computes fits values failed⟩
  · have typed := node.typed
    cases op : n.op with
    | input p =>
      rw [op] at typed
      cases loaded : μ.load p with
      | error e => exact .inl ⟨e, .unread op loaded⟩
      | ok v =>
        obtain ⟨wellFormed, type⟩ := good.load loaded
        exact .inr ⟨some v, .input loaded, by rw [op]; rfl, wellFormed,
          type.trans typed.input_type.symm⟩
    | constant t =>
      rw [op] at typed
      obtain ⟨wellFormed, type⟩ := (node.held t (Node.constant?_eq_some.2 op)).read
      exact .inr ⟨some (μ.store.read t), .constant, by rw [op]; rfl, wellFormed,
        type.trans typed.constant_type.symm⟩
    | save x p =>
      have member : x ∈ n.op.operands := by rw [op]; exact List.mem_singleton_self x
      obtain ⟨v, value, wellFormed, -⟩ := operand member
      have saves : n.Gives none := by rw [Node.Gives, op]; rfl
      exact .inr ⟨none, .save value (Value.duplicate_eq wellFormed), saves⟩
    | _ =>
      rw [op] at computes
      exact (computes trivial).elim

theorem Settled.extend (settled : Settled f μ k val) (lawful : f.Lawful declared μ.store)
    (found : f.nodes[k]? = some n) {r : Option Value}
    (yields : Yields μ.load μ.store.read val n.op n.ty r) (gives : n.Gives r) :
    Settled f μ (k + 1) (extended val k r) := by
  have inside := (List.getElem?_eq_some_iff.1 found).1
  have length : (f.nodes.take k).length = k := List.length_take_of_le (Nat.le_of_lt inside)
  refine ⟨?_, fun i m bound there => ?_⟩
  · have next := settled.evaluates.extend (lawful.topological.take k) (n := n)
      (fun x member => length.symm ▸ lawful.operand_lt found member) yields
    rw [List.take_add_one, found]
    rwa [length] at next
  · by_cases last : i = k
    · subst last
      rw [extended, if_pos rfl, ← Option.some.inj (found.symm.trans there)]
      exact gives
    · rw [extended, if_neg last]
      exact settled.gives i m (by omega) there

theorem Settled.saved (settled : Settled f μ k val) (lawful : f.Lawful declared μ.store)
    {entry : Placeholder × Value} (member : entry ∈ (f.nodes.take k).filterMap (·.saved? val)) :
    entry.2.WellFormed ∧ entry.2.ty = entry.1.ty := by
  obtain ⟨n, present, saved⟩ := List.mem_filterMap.1 member
  obtain ⟨i, there⟩ := List.mem_iff_getElem?.1 present
  have bound : i < k := by
    have inside := (List.getElem?_eq_some_iff.1 there).1
    rw [List.length_take] at inside
    omega
  have found : f.nodes[i]? = some n := by rwa [List.getElem?_take_of_lt bound] at there
  have typed := lawful.typed found
  unfold Node.saved? at saved
  split at saved
  next x p op =>
    have later := lawful.operand_lt found (x := x) (by rw [op]; exact List.mem_singleton_self x)
    obtain ⟨operand, -⟩ := (op ▸ typed).of_save
    rw [Function.types_getElem?] at operand
    obtain ⟨m, source, type⟩ := Option.map_eq_some_iff.1 operand
    have gives := settled.gives x m (Nat.lt_trans later bound) source
    cases value : val x with
    | none =>
      rw [value] at saved
      cases saved
    | some v =>
      rw [value] at saved gives
      obtain ⟨-, wellFormed, type'⟩ := gives
      rw [Option.bind_some, Value.duplicate_eq wellFormed] at saved
      cases saved
      exact ⟨wellFormed, type'.trans type⟩
  next => cases saved

/-- Node `i` stops the walk, and all nodes before it have values. -/
structure StuckAt (f : Function) (μ : Memory) (i : Nat) (e : Error)
    (val : NodeId → Option Value) : Prop where
  settled : Settled f μ i val
  stops : ∃ n, f.nodes[i]? = some n ∧ n.Stops μ val e

/-- Either the first `k` nodes have values, or one of them stops the walk. -/
theorem settled_or_stuck (lawful : f.Lawful declared μ.store) (good : μ.Lawful)
    (unsaved : ¬ f.ReadsSave) (inside : k ≤ f.nodes.length) :
    (∃ val, Settled f μ k val) ∨ ∃ i < k, ∃ e val, StuckAt f μ i e val := by
  induction k with
  | zero => exact .inl ⟨fun _ => none, .start f μ _⟩
  | succ k ih =>
    obtain ⟨val, settled⟩ | ⟨i, before, stuck⟩ := ih (Nat.le_of_succ_le inside)
    · have found := List.getElem?_eq_getElem inside
      obtain ⟨e, stops⟩ | ⟨r, yields, gives⟩ := settled.yields lawful good found unsaved
      · exact .inr ⟨k, Nat.lt_succ_self k, e, val, settled, _, found, stops⟩
      · exact .inl ⟨_, settled.extend lawful found yields gives⟩
    · exact .inr ⟨i, Nat.lt_succ_of_lt before, stuck⟩

/-- If every placeholder read can be read and the elements of every node can be counted, all nodes
have a valuation of the right types. -/
theorem exists_settled (lawful : f.Lawful declared μ.store) (good : μ.Lawful)
    (unsaved : ¬ f.ReadsSave) (bound : ∀ p ∈ f.sources, ∃ v, μ.load p = .ok v) (fits : f.Fits)
    (inside : k ≤ f.nodes.length) : ∃ val, Settled f μ k val := by
  obtain settled | ⟨i, -, e, val, stuck⟩ := settled_or_stuck lawful good unsaved inside
  · exact settled
  · obtain ⟨n, found, stops⟩ := stuck.stops
    cases stops with
    | unread op failed =>
      obtain ⟨v, loaded⟩ := bound _ (Function.mem_sources.2 ⟨i, n, found, op⟩)
      cases failed.symm.trans loaded
    | overflow computes unfit => exact (unfit (fits n (List.mem_of_getElem? found))).elim

theorem not_evaluates (readsSave : f.ReadsSave) {load : Placeholder → Except Error Value}
    {const : Tensor → Value} : ¬ Evaluates load const f.nodes val := by
  intro evaluates
  obtain ⟨n, member, x, operand, m, source, save⟩ := readsSave
  obtain ⟨i, found⟩ := List.mem_iff_getElem?.1 member
  obtain ⟨v, value⟩ := (evaluates i n found).operand operand
  cases value.symm.trans ((evaluates x m source).of_save save)

theorem Node.Stops.not_yields {e : Error} (stops : n.Stops μ val e) {const : Tensor → Value}
    {r : Option Value} : ¬ Yields μ.load const val n.op n.ty r := by
  intro yields
  cases stops with
  | unread op failed =>
    rw [op] at yields
    cases yields with
    | input bound => cases bound.symm.trans failed
    | computed computes => exact computes.elim
  | overflow computes unfit values failed =>
    obtain ⟨args', v, values', made, -⟩ := yields.of_computes computes
    obtain rfl := (List.map_inj_right fun _ _ => Option.some.inj).1 (values'.symm.trans values)
    cases made.symm.trans failed

theorem Interpreter.step_of_stops {e : Error} (stops : n.Stops μ val e) {nodes : List Node}
    (ordered : ∀ x ∈ n.op.operands, x < nodes.length) :
    step μ (.upTo val nodes) n = .error e := by
  cases stops with
  | unread op failed => simp only [step, op, Memory.load_eq_error.1 failed, error_bind]
  | @overflow args computes unfit values failed =>
    have read : n.op.operands.mapM ((Walk.upTo val nodes).operand n) = .ok args :=
      (operands_eq_ok rfl ordered).2 values
    rw [Op.evaluate_store computes .empty μ.store] at failed
    unfold step
    split
    next op => exact (op ▸ computes).elim
    next op => exact (op ▸ computes).elim
    next => rw [read, ok_bind, failed, error_bind]

theorem Interpreter.walk_of_stuck (lawful : f.Lawful declared μ.store) {i : Nat} {e : Error}
    (stuck : StuckAt f μ i e val) : walk f μ = .error e := by
  obtain ⟨n, found, stops⟩ := stuck.stops
  obtain ⟨inside, rfl⟩ := List.getElem?_eq_some_iff.1 found
  have length : (f.nodes.take i).length = i := List.length_take_of_le (Nat.le_of_lt inside)
  have before : (f.nodes.take i).foldlM (step μ) .start = .ok (.upTo val (f.nodes.take i)) :=
    (walk_eq_ok (lawful.topological.take i)).2 ⟨val, stuck.settled.evaluates, rfl⟩
  have stopped := step_of_stops stops fun x member => length.symm ▸ lawful.operand_lt found member
  rw [walk, ← List.take_append_drop i f.nodes, List.drop_eq_getElem_cons inside,
    List.foldlM_append, before, ok_bind, List.foldlM_cons, stopped, error_bind]

theorem Evaluates.settled (evaluates : Evaluates μ.load μ.store.read f.nodes val)
    (lawful : f.Lawful declared μ.store) (good : μ.Lawful) (inside : k ≤ f.nodes.length) :
    Settled f μ k val := by
  have unsaved : ¬ f.ReadsSave := fun readsSave => not_evaluates readsSave evaluates
  induction k with
  | zero => exact .start f μ val
  | succ k ih =>
    have settled := ih (Nat.le_of_succ_le inside)
    have found := List.getElem?_eq_getElem inside
    obtain ⟨e, stops⟩ | ⟨r, yields, gives⟩ := settled.yields lawful good found unsaved
    · exact (stops.not_yields (evaluates k _ found)).elim
    · obtain rfl := yields.unique (evaluates k _ found)
      have next := settled.extend lawful found yields gives
      have same : extended val k (val k) = val := funext fun i => by
        unfold extended
        split
        next here => rw [here]
        next => rfl
      rwa [same] at next

theorem Evaluates.fits (evaluates : Evaluates μ.load μ.store.read f.nodes val)
    (lawful : f.Lawful declared μ.store) (good : μ.Lawful) : f.Fits := by
  have settled := evaluates.settled lawful good (Nat.le_refl _)
  have valued {i : Nat} {n : Node} (found : f.nodes[i]? = some n) (other : n.op.isSave = false) :
      n.ty.shape.Fits := by
    have gives := settled.gives i n (List.getElem?_eq_some_iff.1 found).1 found
    cases value : val i with
    | none =>
      rw [value] at gives
      cases other.symm.trans gives
    | some v =>
      rw [value] at gives
      obtain ⟨-, wellFormed, type⟩ := gives
      exact type ▸ wellFormed.fits
  intro n member
  obtain ⟨i, found⟩ := List.mem_iff_getElem?.1 member
  cases save : n.op.isSave with
  | false => exact valued found save
  | true =>
    -- A save has its operand's type, and the operand has a value.
    obtain ⟨x, p, op⟩ := Op.exists_of_isSave save
    obtain ⟨operand, type⟩ := (op ▸ lawful.typed found).of_save
    rw [Function.types_getElem?] at operand
    obtain ⟨m, source, type'⟩ := Option.map_eq_some_iff.1 operand
    have read : x ∈ n.op.operands := by rw [op]; exact List.mem_singleton_self x
    obtain ⟨v, value⟩ := (evaluates i n found).operand read
    have gives := settled.gives x m (List.getElem?_eq_some_iff.1 source).1 source
    rw [value] at gives
    obtain ⟨-, wellFormed, same⟩ := gives
    rw [type, ← type', ← same]
    exact wellFormed.fits

end TensorGraph
