import TensorGraph.Optimize.Folding
import TensorGraph.Proofs.Graph.Typing
import TensorGraph.Proofs.Lists

/-!
Lawful functions. `Node.Lawful` says what holds of one node, given the types of the nodes
before it, the placeholders its module declares and the store its constants live in. A
function is lawful when all its nodes are and no placeholder is saved twice; it then passes
`verify`.
-/

namespace TensorGraph

structure Node.Lawful (declared : List Placeholder) (σ : Store) (Γ : List TensorType)
    (n : Node) : Prop where
  typed : n.op.HasType Γ n.ty
  rank_le : n.ty.shape.rank ≤ Shape.maxRank
  declared : ∀ p, n.op.placeholder? = some p → p ∈ declared
  held : ∀ t, n.constant? = some t → σ.Holds t

/-- The types of a function's nodes. -/
def Function.types (f : Function) : List TensorType := f.nodes.map Node.ty

structure Function.Lawful (declared : List Placeholder) (σ : Store) (f : Function) : Prop where
  nodes : ∀ (i : Nat) (n : Node), f.nodes[i]? = some n → n.Lawful declared σ (f.types.take i)
  distinct : (f.outputs.map (·.id)).Nodup

/-- The elements of every node can be counted in words. -/
def Function.Fits (f : Function) : Prop := ∀ n ∈ f.nodes, n.ty.shape.Fits

instance (f : Function) : Decidable f.Fits := List.decidableBAll _ f.nodes

variable {declared : List Placeholder} {σ τ : Store} {Γ : List TensorType} {n : Node}
  {f : Function}

theorem Node.Lawful.mono (lawful : n.Lawful declared σ Γ) {declared' : List Placeholder}
    (more : ∀ p ∈ declared, p ∈ declared') (kept : ∀ t, σ.Holds t → τ.Holds t) :
    n.Lawful declared' τ Γ :=
  ⟨lawful.typed, lawful.rank_le, fun p named => more p (lawful.declared p named),
    fun t constant => kept t (lawful.held t constant)⟩

theorem Node.constant?_eq_some {t : Tensor} : n.constant? = some t ↔ n.op = .constant t := by
  unfold constant?
  split <;> simp_all

namespace Function

theorem Lawful.mono (lawful : f.Lawful declared σ) {declared' : List Placeholder}
    (more : ∀ p ∈ declared, p ∈ declared') (kept : ∀ t, σ.Holds t → τ.Holds t) :
    f.Lawful declared' τ :=
  ⟨fun i n found => (lawful.nodes i n found).mono more kept, lawful.distinct⟩

@[simp] theorem length_types (f : Function) : f.types.length = f.nodes.length :=
  List.length_map _

theorem types_getElem? (f : Function) (i : Nat) : f.types[i]? = f.nodes[i]?.map Node.ty :=
  List.getElem?_map

theorem lawful_empty (name : String) (owner : ModuleId) :
    (empty name owner).Lawful declared σ := by
  refine ⟨fun i n found => ?_, List.nodup_nil⟩
  simp [empty] at found

theorem Lawful.operand_lt (lawful : f.Lawful declared σ) {i : Nat}
    (found : f.nodes[i]? = some n) {x : Nat} (member : x ∈ n.op.operands) : x < i := by
  have bound := (lawful.nodes i n found).typed.operand member
  rw [List.length_take] at bound
  omega

theorem Lawful.rank_le (lawful : f.Lawful declared σ) {x : Nat} {ty : TensorType}
    (found : f.types[x]? = some ty) : ty.shape.rank ≤ Shape.maxRank := by
  rw [types_getElem?] at found
  obtain ⟨n, atIndex, rfl⟩ := Option.map_eq_some_iff.1 found
  exact (lawful.nodes x n atIndex).rank_le

theorem Lawful.typed (lawful : f.Lawful declared σ) {i : Nat}
    (found : f.nodes[i]? = some n) : n.op.HasType f.types n.ty := by
  refine (lawful.nodes i n found).typed.congr fun x member => ?_
  rw [List.getElem?_take_of_lt (lawful.operand_lt found member)]

/-- Functions are lawful node by node, so a function stays lawful when each node is replaced
by a lawful one of the same type. -/
theorem Lawful.replace (lawful : f.Lawful declared σ) {g : Function}
    (types : g.types = f.types) (outputs : g.outputs = f.outputs)
    (nodes : ∀ (i : Nat) (n : Node), g.nodes[i]? = some n →
      n.Lawful declared τ (f.types.take i)) :
    g.Lawful declared τ := by
  refine ⟨fun i n found => ?_, ?_⟩
  · rw [types]
    exact nodes i n found
  · rw [outputs]
    exact lawful.distinct

theorem outputs_append (f : Function) (n : Node) :
    outputs { f with nodes := f.nodes ++ [n] } = f.outputs ++ n.op.target?.toList := by
  cases target : n.op.target? <;> simp [outputs, target]

theorem Lawful.push (lawful : f.Lawful declared σ) (node : n.Lawful declared σ f.types)
    (fresh : ∀ p, n.op.target? = some p → ∀ q ∈ f.outputs, q.id ≠ p.id) :
    Lawful declared σ { f with nodes := f.nodes ++ [n] } := by
  refine ⟨fun i m found => ?_, ?_⟩
  · have before : i ≤ f.nodes.length →
        (types { f with nodes := f.nodes ++ [n] }).take i = f.types.take i := by
      intro bound
      rw [types, List.map_append, List.take_append_of_le_length (by simpa using bound), types]
    rcases getElem?_concat found with found | ⟨rfl, rfl⟩
    · rw [before (Nat.le_of_lt (List.getElem?_eq_some_iff.1 found).1)]
      exact lawful.nodes i m found
    · rw [before (Nat.le_refl _), ← f.length_types, List.take_length]
      exact node
  · rw [outputs_append, List.map_append]
    refine List.nodup_append.2 ⟨lawful.distinct, ?_, ?_⟩
    · cases n.op.target? <;> simp
    · intro a old b new
      obtain ⟨q, member, rfl⟩ := List.mem_map.1 old
      obtain ⟨p, target, rfl⟩ := List.mem_map.1 new
      exact fresh p (Option.mem_toList.1 target) q member

/-- Verifying the nodes from position `k` on, when `saved` lists the targets before. -/
theorem verify_from (f : Function) (nodes : List Node) (k : Nat) (saved : List PlaceholderId)
    (ordered : ∀ (i : Nat) (n : Node), nodes[i]? = some n →
      ∀ x : Nat, x ∈ n.op.operands → x < k + i)
    (distinct : (saved ++ (nodes.filterMap (·.op.target?)).map (·.id)).Nodup) :
    ∃ saved', (nodes.zipIdx k).foldlM (fun saved (n, id) => f.verifyNode saved id n) saved =
      .ok saved' := by
  induction nodes generalizing k saved with
  | nil => exact ⟨saved, rfl⟩
  | cons n rest ih =>
    have first : n.op.operands.find? (k ≤ ·) = none := by
      rw [List.find?_eq_none]
      intro x member
      have bound := ordered 0 n rfl x member
      simpa using bound
    have later : ∀ (i : Nat) (m : Node), rest[i]? = some m →
        ∀ x : Nat, x ∈ m.op.operands → x < k + 1 + i := by
      intro i m found x member
      have bound := ordered (i + 1) m found x member
      omega
    rw [List.zipIdx_cons, List.foldlM_cons]
    simp only [verifyNode, first]
    cases op : n.op with
    | save x p =>
      simp only [List.filterMap_cons, op, Op.target?, List.map_cons] at distinct
      have absent : p.id ∉ saved := by
        intro member
        exact (List.nodup_append.1 distinct).2.2 _ member _ List.mem_cons_self rfl
      simp only [if_neg absent, ok_bind]
      exact ih (k + 1) (p.id :: saved) later (List.perm_middle.nodup_iff.1 distinct)
    | _ =>
      simp only [List.filterMap_cons, op, Op.target?] at distinct
      exact ih (k + 1) saved later distinct

theorem Lawful.verify (lawful : f.Lawful declared σ) : f.verify = .ok () := by
  obtain ⟨saved, done⟩ := verify_from f f.nodes 0 []
    (fun i n found x member => by simpa using lawful.operand_lt found member) lawful.distinct
  rw [Function.verify, done]
  rfl

end Function
end TensorGraph
