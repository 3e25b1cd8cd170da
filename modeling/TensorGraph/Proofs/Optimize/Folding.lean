import TensorGraph.Proofs.Optimize.Rewriting

/-!
Constant folding rewrites every lawful function, unless it comes to a node whose value has more
elements than can be counted. A folded node yields what it did: the value it now holds was made
from the values of constants.
-/

namespace TensorGraph

theorem Op.computes_of_isComputation {ι : Type} {op : Op ι} (h : op.isComputation) :
    op.Computes := by
  cases op <;> trivial

theorem Op.compute_eq {ι : Type} {op : Op ι} (computes : op.Computes) (args : List Tensor)
    (ty : TensorType) (σ : Store) :
    op.compute args ty σ =
      match op.evaluate σ (args.map σ.read) ty with
      | .ok v => .ok (σ.allocate v).1 (σ.allocate v).2
      | .error e => .error e σ := by
  have allocated : (do
      let σ ← get
      Tensor.new (← op.evaluate σ (args.map σ.read) ty) : StoreM Tensor) σ =
      match op.evaluate σ (args.map σ.read) ty with
      | .ok v => .ok (σ.allocate v).1 (σ.allocate v).2
      | .error e => .error e σ := by
    cases made : op.evaluate σ (args.map σ.read) ty <;>
      simp only [state_bind, state_get, state_check, made]
    rfl
  cases op <;> first | exact computes.elim | exact allocated

/-- The program stops because some node of the function has more elements than can be counted.
Until then it has only made tensors. -/
def Function.Overflows {α : Type} (f : Function) (x : StoreM α) (σ : Store) : Prop :=
  ¬ f.Fits ∧ ∃ τ, x σ = .error .overflow τ ∧ σ.Grows τ

variable {declared : List Placeholder} {σ τ : Store} {f : Function} {done : List Node}
  {n : Node}

/-- `done` replaces the first nodes of `f`, with the new constants held in `τ`. -/
structure Folding (declared : List Placeholder) (σ : Store) (f : Function) (τ : Store)
    (done : List Node) : Prop where
  grows : σ.Grows τ
  replaces : ReplacesFirst declared σ f τ done

theorem Folding.constant (folding : Folding declared σ f τ done) {x : Nat} {t : Tensor}
    (inside : x < f.nodes.length) (found : done[x]?.bind Node.constant? = some t) :
    ((τ.read t).WellFormed ∧ f.types[x]? = some (τ.read t).ty) ∧
      ∀ load val, Evaluates load σ.read f.nodes val → val x = some (τ.read t) := by
  obtain ⟨m, atIndex, constant⟩ := Option.bind_eq_some_iff.1 found
  have old := List.getElem?_eq_getElem inside
  have replaces := folding.replaces x _ m old atIndex
  obtain ⟨wellFormed, type⟩ := (replaces.lawful.held t constant).read
  have op := Node.constant?_eq_some.1 constant
  refine ⟨⟨wellFormed, ?_⟩, fun load val evaluates => ?_⟩
  · have typed := replaces.lawful.typed
    rw [op] at typed
    rw [Function.types_getElem?, old, Option.map_some, ← replaces.type, type, typed.constant_type]
  · have yields := replaces.yields load val evaluates
    rw [op] at yields
    exact yields.unique .constant

section

variable (folding : Folding declared σ f τ done) (lawful : f.Lawful declared σ)
  (found : f.nodes[done.length]? = some n) {args : List Tensor}
  (constants : n.op.operands.map (fun x => done[x]?.bind Node.constant?) = args.map some)

include folding lawful found constants

/-- The valuation that knows the constants alone has the operands' values. -/
theorem Folding.operands :
    ∃ known : NodeId → Option Value, n.op.operands.map known = (args.map τ.read).map some ∧
      ∀ x ∈ n.op.operands, ∀ v, known x = some v → (v.WellFormed ∧ f.types[x]? = some v.ty) ∧
        ∀ load val, Evaluates load σ.read f.nodes val → val x = some v := by
  refine ⟨fun x => (done[x]?.bind Node.constant?).map τ.read, ?_, fun x member v value => ?_⟩
  · have read := congrArg (List.map (Option.map τ.read)) constants
    simpa [List.map_map, Function.comp_def] using read
  · obtain ⟨t, constant, rfl⟩ := Option.map_eq_some_iff.1 value
    have inside := Nat.lt_trans (lawful.operand_lt found member)
      (List.getElem?_eq_some_iff.1 found).1
    exact folding.constant inside constant

/-- A computation on constants whose result can be counted can be made, and holds what the node
yields. -/
theorem Folding.made (computes : n.op.Computes) (fits : n.ty.shape.Fits) :
    ∃ v, n.op.evaluate τ (args.map τ.read) n.ty = .ok v ∧ v.WellFormed ∧ v.ty = n.ty ∧
      ∀ load val, Evaluates load σ.read f.nodes val → val done.length = some v := by
  obtain ⟨known, values, operand⟩ := folding.operands lawful found constants
  obtain ⟨v, made, wellFormed, type⟩ := (lawful.typed found).evaluate computes τ values
    (fun x member v value => (operand x member v value).1) fits
  refine ⟨v, made, wellFormed, type, fun load val evaluates => ?_⟩
  obtain ⟨args', v', values', made', result⟩ := (evaluates _ n found).of_computes computes
  have same : n.op.operands.map val = n.op.operands.map known := by
    refine List.map_congr_left fun x member => ?_
    have present : known x ∈ (args.map τ.read).map some := values ▸ List.mem_map_of_mem member
    obtain ⟨v, -, value⟩ := List.mem_map.1 present
    rw [← value]
    exact (operand x member v value.symm).2 load val evaluates
  obtain rfl := (List.map_inj_right fun _ _ => Option.some.inj).1
    (values'.symm.trans (same.trans values))
  rw [result, ← Except.ok.inj (made'.symm.trans ((Op.evaluate_store computes _ _ _ _).trans made))]

theorem Folding.overflow (computes : n.op.Computes) (unfit : ¬ n.ty.shape.Fits) :
    n.op.evaluate τ (args.map τ.read) n.ty = .error .overflow := by
  obtain ⟨known, values, operand⟩ := folding.operands lawful found constants
  exact (lawful.typed found).evaluate_overflow computes τ values
    (fun x member v value => (operand x member v value).1) unfit

end

theorem Replaces.constant (lawful : f.Lawful declared σ) {i : Nat}
    (found : f.nodes[i]? = some n) (computes : n.op.Computes) {t : Tensor} (held : τ.Holds t)
    (type : t.ty = n.ty)
    (value : ∀ load val, Evaluates load σ.read f.nodes val → val i = some (τ.read t)) :
    Replaces declared σ f τ i n { n with op := .constant t } := by
  refine ⟨⟨type ▸ .constant t, (lawful.nodes i n found).rank_le, fun p named => (nomatch named),
    ?_⟩, rfl, (Op.target?_of_computes computes).symm, (Op.source?_of_computes computes).symm,
    fun load val evaluates => ?_, fun load val evaluates => ?_⟩
  · rintro u ⟨⟩
    exact held
  · rw [value load val evaluates]
    exact .constant
  · rw [Node.saved?_of_computes computes]
    rfl

theorem Folding.foldNode (folding : Folding declared σ f τ done) (lawful : f.Lawful declared σ)
    (found : f.nodes[done.length]? = some n) :
    (∃ r τ', TensorGraph.foldNode done n τ = .ok r τ' ∧ τ.Grows τ' ∧
      Replaces declared σ f τ' done.length n (r.getD n)) ∨
    ¬ n.ty.shape.Fits ∧ TensorGraph.foldNode done n τ = .error .overflow τ := by
  have stays : Replaces declared σ f τ done.length n n :=
    (Replaces.refl lawful found).grow folding.grows
  unfold TensorGraph.foldNode
  by_cases computation : n.op.isComputation
  · rw [if_pos computation]
    have computes := Op.computes_of_isComputation computation
    cases constants : n.op.operands.mapM fun x => done[x]?.bind Node.constant? with
    | none => exact .inl ⟨none, τ, rfl, .refl τ, stays⟩
    | some args =>
      have constants := mapM_eq_some.1 constants
      have computed := Op.compute_eq computes args n.ty τ
      by_cases fits : n.ty.shape.Fits
      · obtain ⟨v, made, wellFormed, type, value⟩ :=
          folding.made lawful found constants computes fits
        rw [made] at computed
        refine .inl ⟨_, _, state_bind_of_ok computed, τ.grows_allocate v, ?_⟩
        refine .constant lawful found computes (τ.holds_allocate wellFormed) type ?_
        intro load val evaluates
        rw [value load val evaluates, Store.read_allocate]
      · rw [folding.overflow lawful found constants computes fits] at computed
        exact .inr ⟨fits, state_bind_of_error computed⟩
  · rw [if_neg computation]
    exact .inl ⟨none, τ, rfl, .refl τ, stays⟩

def foldStep : List Node × Nat → Node → StoreM (List Node × Nat) := fun (done, folded) n => do
  match ← TensorGraph.foldNode done n with
  | some n => return (done ++ [n], folded + 1)
  | none => return (done ++ [n], folded)

theorem Folding.step (folding : Folding declared σ f τ done) (lawful : f.Lawful declared σ)
    (found : f.nodes[done.length]? = some n) (count : Nat) :
    (∃ n' count' τ', foldStep (done, count) n τ = .ok (done ++ [n'], count') τ' ∧
      Folding declared σ f τ' (done ++ [n'])) ∨
    ¬ n.ty.shape.Fits ∧ foldStep (done, count) n τ = .error .overflow τ := by
  obtain ⟨r, τ', made, grows, replaces⟩ | ⟨unfit, failed⟩ := folding.foldNode lawful found
  · have extended : Folding declared σ f τ' (done ++ [r.getD n]) :=
      ⟨folding.grows.trans grows, (folding.replaces.grow grows).concat found replaces⟩
    cases r with
    | none => exact .inl ⟨n, count, τ', state_bind_of_ok made, extended⟩
    | some n' => exact .inl ⟨n', count + 1, τ', state_bind_of_ok made, extended⟩
  · exact .inr ⟨unfit, state_bind_of_error failed⟩

theorem Folding.run (lawful : f.Lawful declared σ) (rest : List Node) {done : List Node}
    {τ : Store} (folding : Folding declared σ f τ done) (left : f.nodes.drop done.length = rest)
    (inside : done.length ≤ f.nodes.length) (count : Nat) :
    (∃ nodes count' τ', rest.foldlM foldStep (done, count) τ = .ok (nodes, count') τ' ∧
      Folding declared σ f τ' nodes ∧ nodes.length = f.nodes.length) ∨
    ¬ f.Fits ∧ ∃ τ', rest.foldlM foldStep (done, count) τ = .error .overflow τ' ∧ σ.Grows τ' := by
  induction rest generalizing done τ count with
  | nil =>
    have last := List.drop_eq_nil_iff.1 left
    exact .inl ⟨done, count, τ, rfl, folding, Nat.le_antisymm inside last⟩
  | cons n rest ih =>
    obtain ⟨found, left⟩ := drop_eq_cons left
    obtain ⟨n', count', τ', stepped, next⟩ | ⟨unfit, failed⟩ := folding.step lawful found count
    · have bound := (List.getElem?_eq_some_iff.1 found).1
      have length : (done ++ [n']).length = done.length + 1 := by simp
      rw [List.foldlM_cons, state_bind_of_ok stepped]
      exact ih next (length ▸ left) (length ▸ bound) count'
    · refine .inr ⟨fun fits => unfit (fits n (List.mem_of_getElem? found)), τ, ?_, folding.grows⟩
      exact state_bind_of_error failed

/-- Folding rewrites every lawful function, unless it comes to a value that cannot be counted. -/
theorem Function.Lawful.foldConstants (lawful : f.Lawful declared σ) :
    (∃ g count τ, f.foldConstants σ = .ok (g, count) τ ∧ Rewrites declared σ f τ g) ∨
    f.Overflows f.foldConstants σ := by
  have start : Folding declared σ f σ [] := ⟨.refl σ, .nil⟩
  obtain ⟨nodes, count, τ, folded, folding, length⟩ | ⟨unfit, τ, failed, grows⟩ :=
    Folding.run lawful f.nodes start rfl (Nat.zero_le _) 0
  · refine .inl ⟨{ f with nodes }, count, τ, state_bind_of_ok folded, ?_⟩
    exact .of_replaces lawful folding.grows rfl length folding.replaces
  · exact .inr ⟨unfit, τ, state_bind_of_error failed, grows⟩

end TensorGraph
