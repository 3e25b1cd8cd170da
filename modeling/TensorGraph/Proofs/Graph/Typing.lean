import TensorGraph.Graph.Op
import TensorGraph.Proofs.Tensor.Store

/-!
Typing of operations. `Op.HasType Γ op ty` is the rule for each operation: `Γ` lists the
types of the nodes an operand may name, so an operation with a type reads only nodes that
are there. A computation with a type does not fail on values of its operands' types.
-/

namespace TensorGraph.Op

inductive HasType (Γ : List TensorType) : Op Nat → TensorType → Prop where
  | input (p : Placeholder) : HasType Γ (.input p) p.ty
  | constant (t : Tensor) : HasType Γ (.constant t) t.ty
  | unary {f : Unary} {x : Nat} {ty : TensorType} (operand : Γ[x]? = some ty) :
      HasType Γ (.unary f x) ty
  | binary {f : Binary} {x y : Nat} {ty : TensorType} (left : Γ[x]? = some ty)
      (right : Γ[y]? = some ty) : HasType Γ (.binary f x y) ty
  | matmul {x y : Nat} {kind : ElementKind} {m k n : Nat}
      (left : Γ[x]? = some ⟨kind, .matrix m k⟩) (right : Γ[y]? = some ⟨kind, .matrix k n⟩) :
      HasType Γ (.matmul x y) ⟨kind, .matrix m n⟩
  | reshape {x : Nat} {ty : TensorType} {shape : Shape} (operand : Γ[x]? = some ty)
      (rank : shape.rank ≤ Shape.maxRank) (fits : shape.Fits) (count : shape.count = ty.count) :
      HasType Γ (.reshape x) ⟨ty.kind, shape⟩
  | transpose {x : Nat} {kind : ElementKind} {rows cols : Nat}
      (operand : Γ[x]? = some ⟨kind, .matrix rows cols⟩) :
      HasType Γ (.transpose x) ⟨kind, .matrix cols rows⟩
  | addRelu {x y : Nat} {ty : TensorType} (left : Γ[x]? = some ty)
      (right : Γ[y]? = some ty) : HasType Γ (.addRelu x y) ty
  | save {x : Nat} {p : Placeholder} (operand : Γ[x]? = some p.ty) :
      HasType Γ (.save x p) p.ty

/-- Whether the operation computes something from the values of other nodes. -/
def Computes {ι : Type} (op : Op ι) : Prop :=
  match op with
  | .input _ | .constant _ | .save .. => False
  | _ => True

theorem exists_of_isSave {ι : Type} {op : Op ι} (save : op.isSave = true) :
    ∃ x p, op = .save x p := by
  cases op with
  | save x p => exact ⟨x, p, rfl⟩
  | _ => cases save

theorem isSave_of_computes {ι : Type} {op : Op ι} (computes : op.Computes) :
    op.isSave = false := by
  cases op <;> first | exact computes.elim | rfl

theorem placeholder?_of_computes {ι : Type} {op : Op ι} (computes : op.Computes) :
    op.placeholder? = none := by
  cases op <;> first | exact computes.elim | rfl

theorem source?_of_computes {ι : Type} {op : Op ι} (computes : op.Computes) :
    op.source? = none := by
  cases op <;> first | exact computes.elim | rfl

theorem target?_of_computes {ι : Type} {op : Op ι} (computes : op.Computes) :
    op.target? = none := by
  cases op <;> first | exact computes.elim | rfl

section

variable {ι κ : Type}

@[simp] theorem target?_map (g : ι → κ) (op : Op ι) : (op.map g).target? = op.target? := by
  cases op <;> rfl

@[simp] theorem source?_map (g : ι → κ) (op : Op ι) : (op.map g).source? = op.source? := by
  cases op <;> rfl

@[simp] theorem isSave_map (g : ι → κ) (op : Op ι) : (op.map g).isSave = op.isSave := by
  cases op <;> rfl

theorem map_congr {g h : ι → κ} {op : Op ι} (same : ∀ x ∈ op.operands, g x = h x) :
    op.map g = op.map h := by
  cases op <;> simp_all [map, operands]

theorem map_eq_constant {g : ι → κ} {op : Op ι} {t : Tensor} (h : op.map g = .constant t) :
    op = .constant t := by
  cases op <;> cases h
  rfl

theorem target?_of_not_save {op : Op ι} (other : op.isSave = false) : op.target? = none := by
  cases op <;> first | rfl | cases other

end

variable {Γ Δ : List TensorType} {op : Op Nat} {ty : TensorType}

theorem HasType.operand (typed : op.HasType Γ ty) {x : Nat} (member : x ∈ op.operands) :
    x < Γ.length := by
  have present : ∃ t, Γ[x]? = some t := by
    cases typed with
    | input | constant => cases member
    | unary operand | reshape operand | transpose operand | save operand =>
      rw [List.mem_singleton.1 member]
      exact ⟨_, operand⟩
    | binary left right | matmul left right | addRelu left right =>
      rcases List.mem_cons.1 member with same | member
      · exact ⟨_, same ▸ left⟩
      · exact ⟨_, List.mem_singleton.1 member ▸ right⟩
  obtain ⟨t, found⟩ := present
  exact (List.getElem?_eq_some_iff.1 found).1

/-- Renaming operands keeps the type where the names stand for nodes of the same types. -/
theorem HasType.map (typed : op.HasType Γ ty) {g : Nat → Nat}
    (same : ∀ x ∈ op.operands, Δ[g x]? = Γ[x]?) : (op.map g).HasType Δ ty := by
  cases typed with
  | input p => exact .input p
  | constant t => exact .constant t
  | unary operand => exact .unary ((same _ (by simp [operands])).trans operand)
  | binary left right =>
    exact .binary ((same _ (by simp [operands])).trans left)
      ((same _ (by simp [operands])).trans right)
  | matmul left right =>
    exact .matmul ((same _ (by simp [operands])).trans left)
      ((same _ (by simp [operands])).trans right)
  | reshape operand rank fits count =>
    exact .reshape ((same _ (by simp [operands])).trans operand) rank fits count
  | transpose operand => exact .transpose ((same _ (by simp [operands])).trans operand)
  | addRelu left right =>
    exact .addRelu ((same _ (by simp [operands])).trans left)
      ((same _ (by simp [operands])).trans right)
  | save operand => exact .save ((same _ (by simp [operands])).trans operand)

theorem HasType.congr (typed : op.HasType Γ ty) (same : ∀ x ∈ op.operands, Δ[x]? = Γ[x]?) :
    op.HasType Δ ty := by
  rw [← op.map_id]
  exact typed.map same

theorem HasType.input_type {p : Placeholder} (typed : (Op.input p).HasType Γ ty) : ty = p.ty := by
  cases typed
  rfl

theorem HasType.constant_type {t : Tensor} (typed : (Op.constant t).HasType Γ ty) : ty = t.ty := by
  cases typed
  rfl

-- Read backwards, each rule gives the types of the operands.

theorem HasType.of_save {x : Nat} {p : Placeholder} (typed : (Op.save x p).HasType Γ ty) :
    Γ[x]? = some p.ty ∧ ty = p.ty := by
  cases typed with
  | save operand => exact ⟨operand, rfl⟩

theorem HasType.of_binary {f : Binary} {x y : Nat} (typed : (Op.binary f x y).HasType Γ ty) :
    Γ[x]? = some ty ∧ Γ[y]? = some ty := by
  cases typed with
  | binary left right => exact ⟨left, right⟩

theorem HasType.of_addRelu {x y : Nat} (typed : (Op.addRelu x y).HasType Γ ty) :
    Γ[x]? = some ty ∧ Γ[y]? = some ty := by
  cases typed with
  | addRelu left right => exact ⟨left, right⟩

theorem HasType.of_matmul {x y : Nat} (typed : (Op.matmul x y).HasType Γ ty) :
    ∃ kind m k n, Γ[x]? = some ⟨kind, .matrix m k⟩ ∧ Γ[y]? = some ⟨kind, .matrix k n⟩ ∧
      ty = ⟨kind, .matrix m n⟩ := by
  cases typed with
  | matmul left right => exact ⟨_, _, _, _, left, right, rfl⟩

theorem HasType.of_transpose {x : Nat} (typed : (Op.transpose x).HasType Γ ty) :
    ∃ kind rows cols, Γ[x]? = some ⟨kind, .matrix rows cols⟩ ∧ ty = ⟨kind, .matrix cols rows⟩ := by
  cases typed with
  | transpose operand => exact ⟨_, _, _, operand, rfl⟩

variable {ι : Type} {val : ι → Option Value} {args : List Value}

theorem values_one {x : ι} (values : [x].map val = args.map some) :
    ∃ a, args = [a] ∧ val x = some a := by
  obtain ⟨a, rest, rfl, first, values⟩ := List.map_eq_cons_iff.1 values.symm
  rw [List.map_nil, List.map_eq_nil_iff] at values
  exact ⟨a, by rw [values], first.symm⟩

theorem values_two {x y : ι} (values : [x, y].map val = args.map some) :
    ∃ a b, args = [a, b] ∧ val x = some a ∧ val y = some b := by
  obtain ⟨a, rest, rfl, first, values⟩ := List.map_eq_cons_iff.1 values.symm
  obtain ⟨b, rfl, second⟩ := values_one values.symm
  exact ⟨a, b, rfl, first.symm, second⟩

theorem evaluate_store {op : Op ι} (computes : op.Computes) (σ τ : Store) (args : List Value)
    (ty : TensorType) : op.evaluate σ args ty = op.evaluate τ args ty := by
  cases op <;> first | exact computes.elim | rfl

section

variable {val : Nat → Option Value} (typed : op.HasType Γ ty) (computes : op.Computes) (σ : Store)
  (values : op.operands.map val = args.map some)
  (lawful : ∀ x ∈ op.operands, ∀ v, val x = some v → v.WellFormed ∧ Γ[x]? = some v.ty)

theorem type_of_value {x : Nat} {a : Value} {t : TensorType}
    (lawful : ∀ v, val x = some v → v.WellFormed ∧ Γ[x]? = some v.ty) (value : val x = some a)
    (operand : Γ[x]? = some t) : a.WellFormed ∧ a.ty = t := by
  obtain ⟨wellFormed, type⟩ := lawful a value
  exact ⟨wellFormed, Option.some.inj (type.symm.trans operand)⟩

include typed computes values lawful

/-- A computation whose result can be counted succeeds on well-formed values of its operands'
types, and gives a well-formed value of its own type. -/
theorem HasType.evaluate (fits : ty.shape.Fits) :
    ∃ v, op.evaluate σ args ty = .ok v ∧ v.WellFormed ∧ v.ty = ty := by
  have typeOf {x : Nat} {a : Value} {t : TensorType} (member : x ∈ op.operands) :=
    type_of_value (a := a) (t := t) (lawful x member)
  cases typed with
  | input | constant | save => exact computes.elim
  | @unary f x ty operand =>
    obtain ⟨a, rfl, value⟩ := values_one values
    obtain ⟨wellFormed, rfl⟩ := typeOf (List.mem_singleton_self x) value operand
    have made := Value.unary_eq wellFormed f
    exact ⟨_, made, Value.wellFormed_of_unary made, rfl⟩
  | @binary f x y ty left right =>
    obtain ⟨a, b, rfl, first, second⟩ := values_two values
    obtain ⟨wa, rfl⟩ := typeOf (by simp [operands]) first left
    obtain ⟨wb, same⟩ := typeOf (by simp [operands]) second right
    have made := Value.binary_eq wa wb same.symm f
    exact ⟨_, made, Value.wellFormed_of_binary made, rfl⟩
  | @matmul x y kind m k n left right =>
    obtain ⟨a, b, rfl, first, second⟩ := values_two values
    obtain ⟨-, ta⟩ := typeOf (by simp [operands]) first left
    obtain ⟨-, tb⟩ := typeOf (by simp [operands]) second right
    have made := Value.matmul_eq (a := a) (b := b) (m := m) (k := k) (n := n)
      (by rw [ta, tb]) (by rw [ta]) (by rw [tb]) fits
    exact ⟨_, made, Value.wellFormed_of_matmul made, by rw [ta]⟩
  | @reshape x ty shape operand rank fits count =>
    obtain ⟨a, rfl, value⟩ := values_one values
    obtain ⟨wellFormed, rfl⟩ := typeOf (List.mem_singleton_self x) value operand
    have made := Value.reshape_eq wellFormed rank fits count
    exact ⟨_, made, Value.wellFormed_of_reshape made, rfl⟩
  | @transpose x kind rows cols operand =>
    obtain ⟨a, rfl, value⟩ := values_one values
    obtain ⟨wellFormed, type⟩ := typeOf (List.mem_singleton_self x) value operand
    have made := Value.transpose_eq wellFormed (by rw [type])
    exact ⟨_, made, Value.wellFormed_of_transpose made, by rw [type]⟩
  | @addRelu x y ty left right =>
    obtain ⟨a, b, rfl, first, second⟩ := values_two values
    obtain ⟨wa, rfl⟩ := typeOf (by simp [operands]) first left
    obtain ⟨wb, same⟩ := typeOf (by simp [operands]) second right
    have made := Value.addRelu_eq wa wb same.symm
    exact ⟨_, made, Value.wellFormed_of_addRelu made, rfl⟩

/-- Only a product has more elements than can be counted when there are values of the operands'
types. -/
theorem HasType.matmul_of_not_fits (unfit : ¬ ty.shape.Fits) :
    ∃ x y kind m k n a b, op = .matmul x y ∧ ty = ⟨kind, .matrix m n⟩ ∧ args = [a, b] ∧
      a.ty = ⟨kind, .matrix m k⟩ ∧ b.ty = ⟨kind, .matrix k n⟩ := by
  have typeOf {x : Nat} {a : Value} {t : TensorType} (member : x ∈ op.operands) :=
    type_of_value (a := a) (t := t) (lawful x member)
  cases typed with
  | input | constant | save => exact computes.elim
  | @matmul x y kind m k n left right =>
    obtain ⟨a, b, rfl, first, second⟩ := values_two values
    obtain ⟨-, ta⟩ := typeOf (by simp [operands]) first left
    obtain ⟨-, tb⟩ := typeOf (by simp [operands]) second right
    exact ⟨x, y, kind, m, k, n, a, b, rfl, rfl, rfl, ta, tb⟩
  | @unary f x ty operand =>
    obtain ⟨a, rfl, value⟩ := values_one values
    obtain ⟨wellFormed, rfl⟩ := typeOf (List.mem_singleton_self x) value operand
    exact (unfit wellFormed.fits).elim
  | @transpose x kind rows cols operand =>
    obtain ⟨a, rfl, value⟩ := values_one values
    obtain ⟨wellFormed, type⟩ := typeOf (List.mem_singleton_self x) value operand
    have fits := wellFormed.fits
    rw [type] at fits
    exact (unfit fits.transposed).elim
  | reshape _ _ fits => exact (unfit fits).elim
  | @binary _ x y ty left | @addRelu x y ty left =>
    obtain ⟨a, b, rfl, first, -⟩ := values_two values
    obtain ⟨wellFormed, rfl⟩ := typeOf (by simp [operands]) first left
    exact (unfit wellFormed.fits).elim

theorem HasType.evaluate_overflow (unfit : ¬ ty.shape.Fits) :
    op.evaluate σ args ty = .error .overflow := by
  obtain ⟨x, y, kind, m, k, n, a, b, rfl, rfl, rfl, ta, tb⟩ :=
    typed.matmul_of_not_fits computes values lawful unfit
  exact Value.matmul_overflow (by rw [ta, tb]) (by rw [ta]) (by rw [tb]) unfit

end

end TensorGraph.Op
