import TensorGraph.Graph.Module
import TensorGraph.Proofs.Graph.Lawful

/-!
Builder calls. A call either fails and leaves the function as it was, or appends one node;
`Appends` states both, and has one rule for each step a builder takes. The node appended to
a lawful function is lawful, provided the caller's placeholders and tensors are genuine.
-/

namespace TensorGraph

/-- One call of a builder, on whatever operands the caller names. -/
inductive BuilderCall where
  | input (p : Placeholder)
  | constant (name : String) (t : Tensor)
  | unary (name : String) (f : Unary) (x : NodeId)
  | binary (name : String) (f : Binary) (x y : NodeId)
  | matmul (name : String) (x y : NodeId)
  | reshape (name : String) (x : NodeId) (shape : Shape)
  | transpose (name : String) (x : NodeId)
  | save (name : String) (x : NodeId) (p : Placeholder)

namespace BuilderCall

def run : BuilderCall → Builder NodeId
  | input p => Builder.input p
  | constant name t => Builder.constant name t
  | unary name f x => Builder.unary name f x
  | binary name f x y => Builder.binary name f x y
  | matmul name x y => Builder.matmul name x y
  | reshape name x shape => Builder.reshape name x shape
  | transpose name x => Builder.transpose name x
  | save name x p => Builder.save name x p

/-- A placeholder that names `owner` as its module was declared by it, and a tensor is a
handle on the store. -/
def Genuine (owner : ModuleId) (declared : List Placeholder) (σ : Store) : BuilderCall → Prop
  | input p | save _ _ p => p.id.owner = owner → p ∈ declared
  | constant _ t => σ.Holds t
  | _ => True

end BuilderCall

/-- From `f`, the computation fails and leaves `f`, or it appends a node that satisfies `P`. -/
def Appends (f : Function) (P : Node → Prop) (b : Builder NodeId) : Prop :=
  match b f with
  | .ok id g => id = f.nodes.length ∧ ∃ n, P n ∧ g = { f with nodes := f.nodes ++ [n] }
  | .error _ g => g = f

theorem checkOwner_eq (p : Placeholder) (f : Function) :
    Builder.checkOwner p f =
      if p.id.owner = f.owner then .ok () f else .error (.unknownPlaceholder p.name) f := by
  by_cases own : p.id.owner = f.owner <;>
    simp [Builder.checkOwner, state_bind, own]

namespace Appends

variable {f : Function} {P : Node → Prop} {α : Type}

theorem append {name : String} {op : Op NodeId} {ty : TensorType} (node : P ⟨name, op, ty⟩) :
    Appends f P (Builder.append name op ty) :=
  ⟨rfl, _, node, rfl⟩

theorem throw (e : Error) (rest : α → Builder NodeId) :
    Appends f P ((MonadExcept.throw e : Builder α) >>= rest) := rfl

theorem get {rest : Function → Builder NodeId} (next : Appends f P (rest f)) :
    Appends f P (MonadState.get >>= rest) := next

theorem check {c : Except Error α} {rest : α → Builder NodeId}
    (next : ∀ a, c = .ok a → Appends f P (rest a)) :
    Appends f P ((liftM c : Builder α) >>= rest) := by
  rw [Appends, state_bind, state_check]
  cases c with
  | ok a => exact next a rfl
  | error e => rfl

theorem typeOf {x : NodeId} {rest : TensorType → Builder NodeId}
    (next : ∀ ty, f.types[x]? = some ty → Appends f P (rest ty)) :
    Appends f P (Builder.typeOf x >>= rest) := by
  refine check fun ty found => next ty ?_
  rw [Function.types_getElem?]
  unfold Function.typeOf at found
  split at found
  next n atIndex =>
    rw [atIndex, ← Except.ok.inj found]
    rfl
  next => cases found

theorem checkOwner {p : Placeholder} {rest : Unit → Builder NodeId}
    (next : p.id.owner = f.owner → Appends f P (rest ())) :
    Appends f P (Builder.checkOwner p >>= rest) := by
  rw [Appends, state_bind, checkOwner_eq]
  by_cases own : p.id.owner = f.owner
  · rw [if_pos own]
    exact next own
  · rw [if_neg own]

end Appends

/-- What holds of the node a genuine call appends to a lawful function. -/
def Fits (declared : List Placeholder) (σ : Store) (f : Function) (n : Node) : Prop :=
  n.Lawful declared σ f.types ∧ ∀ p, n.op.target? = some p → ∀ q ∈ f.outputs, q.id ≠ p.id

section

variable {declared : List Placeholder} {σ : Store} {f : Function}

theorem fits_of_computes {name : String} {op : Op NodeId} {ty : TensorType}
    (computes : op.Computes) (typed : op.HasType f.types ty)
    (rank : ty.shape.rank ≤ Shape.maxRank) : Fits declared σ f ⟨name, op, ty⟩ := by
  refine ⟨⟨typed, rank, fun p named => ?_, fun t constant => ?_⟩, fun p target => ?_⟩
  · cases (Op.placeholder?_of_computes computes).symm.trans named
  · rw [Node.constant?_eq_some] at constant
    subst constant
    exact computes.elim
  · cases (Op.target?_of_computes computes).symm.trans target

/-- Every builder call fails without a trace or appends one node, and that node fits if the
function is lawful and the call is genuine. -/
theorem BuilderCall.appends (f : Function) (declared : List Placeholder) (σ : Store)
    (call : BuilderCall) :
    Appends f (fun n =>
      f.Lawful declared σ → (∀ p ∈ declared, p.ty.shape.rank ≤ Shape.maxRank) →
        call.Genuine f.owner declared σ → Fits declared σ f n) call.run := by
  cases call with
  | input p =>
    refine .checkOwner fun own => .append fun lawful ranks genuine => ?_
    have member := genuine own
    refine ⟨⟨.input p, ranks p member, ?_, fun t constant => nomatch constant⟩,
      fun q target => nomatch target⟩
    rintro q ⟨⟩
    exact member
  | constant name t =>
    refine .append fun lawful ranks held => ?_
    refine ⟨⟨.constant t, ?_, fun p named => (nomatch named), ?_⟩,
      fun p target => nomatch target⟩
    · obtain ⟨wellFormed, type⟩ := held.read
      exact type ▸ wellFormed.rank_le
    · rintro u ⟨⟩
      exact held
  | unary name g x =>
    refine .typeOf fun ty operand => .append fun lawful ranks genuine => ?_
    exact fits_of_computes trivial (.unary operand) (lawful.rank_le operand)
  | binary name g x y =>
    refine .typeOf fun left hx => .typeOf fun right hy => .check fun _ same =>
      .append fun lawful ranks genuine => ?_
    rw [TensorType.expectEq_ok_iff] at same
    exact fits_of_computes trivial (.binary hx (same ▸ hy)) (lawful.rank_le hx)
  | matmul name x y =>
    refine .typeOf fun left hx => .typeOf fun right hy => ?_
    by_cases kind : left.kind ≠ right.kind
    · rw [if_pos kind]
      exact .throw _ _
    · rw [if_neg kind]
      refine .check fun (m, k) rows => .check fun (k', n) cols => ?_
      by_cases inner : k ≠ k'
      · simp only [if_pos inner]
        exact .throw _ _
      · simp only [if_neg inner]
        refine .append fun lawful ranks genuine => ?_
        obtain ⟨kx, sx⟩ := left
        obtain ⟨ky, sy⟩ := right
        obtain rfl := Decidable.not_not.1 kind
        obtain rfl := Decidable.not_not.1 inner
        obtain rfl := Shape.matrixDims_eq_ok.1 rows
        obtain rfl := Shape.matrixDims_eq_ok.1 cols
        exact fits_of_computes trivial (.matmul hx hy) (Shape.rank_matrix m n)
  | reshape name x shape =>
    refine .typeOf fun ty operand => .check fun _ rank => .check fun elements counted =>
      .check fun _ expected => .append fun lawful ranks genuine => ?_
    rw [Shape.validate_eq_ok] at rank
    obtain ⟨fits, count⟩ := Shape.expectCount_eq_ok.1 expected
    exact fits_of_computes trivial
      (.reshape operand rank fits (count.trans (Shape.eq_count_of_elements counted))) rank
  | transpose name x =>
    refine .typeOf fun ty operand => .check fun (rows, cols) dims =>
      .append fun lawful ranks genuine => ?_
    obtain ⟨kind, shape⟩ := ty
    obtain rfl := Shape.matrixDims_eq_ok.1 dims
    exact fits_of_computes trivial (.transpose operand) (Shape.rank_matrix cols rows)
  | save name x p =>
    refine .checkOwner fun own => .typeOf fun ty operand => .check fun _ same => .get ?_
    rw [TensorType.expectEq_ok_iff] at same
    by_cases taken : f.outputs.any (·.id = p.id)
    · rw [if_pos taken]
      exact .throw _ _
    · rw [if_neg taken]
      refine .append fun lawful ranks genuine => ?_
      have member := genuine own
      refine ⟨⟨.save (same ▸ operand), ranks p member, ?_, fun t constant => ?_⟩, ?_⟩
      · rintro q ⟨⟩
        exact member
      · cases constant
      · rintro q ⟨⟩ r old equal
        exact taken (List.any_eq_true.2 ⟨r, old, by simpa using equal⟩)

/-- A failing call leaves the function exactly as it was. -/
theorem BuilderCall.run_error (call : BuilderCall) {g : Function} {e : Error}
    (failed : call.run f = .error e g) : g = f := by
  have appends := call.appends f [] .empty
  rw [Appends, failed] at appends
  exact appends

theorem BuilderCall.run_ok (call : BuilderCall) (lawful : f.Lawful declared σ)
    (ranks : ∀ p ∈ declared, p.ty.shape.rank ≤ Shape.maxRank)
    (genuine : call.Genuine f.owner declared σ) {g : Function} {id : NodeId}
    (built : call.run f = .ok id g) : g.Lawful declared σ ∧ g.owner = f.owner := by
  have appends := call.appends f declared σ
  rw [Appends, built] at appends
  obtain ⟨-, n, fits, rfl⟩ := appends
  obtain ⟨node, fresh⟩ := fits lawful ranks genuine
  exact ⟨lawful.push node fresh, rfl⟩

theorem BuilderCall.appends_apart (f : Function) (call : BuilderCall) :
    Appends f (fun n => n.kind ≠ .addRelu) call.run := by
  cases call with
  | input p => exact .checkOwner fun _ => .append nofun
  | constant name t => exact .append nofun
  | unary name g x => exact .typeOf fun _ _ => .append nofun
  | binary name g x y =>
    exact .typeOf fun _ _ => .typeOf fun _ _ => .check fun _ _ => .append nofun
  | matmul name x y =>
    refine .typeOf fun left _ => .typeOf fun right _ => ?_
    by_cases kind : left.kind ≠ right.kind
    · rw [if_pos kind]
      exact .throw _ _
    · rw [if_neg kind]
      refine .check fun (m, k) _ => .check fun (k', n) _ => ?_
      by_cases inner : k ≠ k'
      · simp only [if_pos inner]
        exact .throw _ _
      · simp only [if_neg inner]
        exact .append nofun
  | reshape name x shape =>
    exact .typeOf fun _ _ => .check fun _ _ => .check fun _ _ => .check fun _ _ => .append nofun
  | transpose name x => exact .typeOf fun _ _ => .check fun _ _ => .append nofun
  | save name x p =>
    refine .checkOwner fun _ => .typeOf fun _ _ => .check fun _ _ => .get ?_
    by_cases taken : f.outputs.any (·.id = p.id)
    · rw [if_pos taken]
      exact .throw _ _
    · rw [if_neg taken]
      exact .append nofun

end
end TensorGraph
