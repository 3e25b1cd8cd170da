import Mathlib.Data.List.Basic
import Mathlib.Data.List.Induction
import TensorGraph.Interpreter
import TensorGraph.Proofs.Graph.Lawful
import TensorGraph.Proofs.Lists

/-!
What a walk computes, without its order. A valuation gives every node its value, or nothing
for a save, and `Evaluates` says that each node's value is made from its operands' values. A
walk of a function succeeds exactly when there is a valuation, and then holds its values. The
optimizer's passes are compared by their valuations.
-/

namespace TensorGraph

/-- What a node leaves: its value, or nothing if it is a save. `load` gives what placeholders
are bound to, `const` the values of constants and `val` those of operands. -/
inductive Yields {ι : Type} (load : Placeholder → Except Error Value) (const : Tensor → Value)
    (val : ι → Option Value) : Op ι → TensorType → Option Value → Prop where
  | input {p : Placeholder} {ty : TensorType} {v : Value} (bound : load p = .ok v) :
      Yields load const val (.input p) ty (some v)
  | constant {t : Tensor} {ty : TensorType} :
      Yields load const val (.constant t) ty (some (const t))
  | save {x : ι} {p : Placeholder} {ty : TensorType} {v w : Value} (value : val x = some v)
      (copy : v.duplicate = .ok w) : Yields load const val (.save x p) ty none
  | computed {op : Op ι} {ty : TensorType} {args : List Value} {v : Value}
      (computes : op.Computes) (values : op.operands.map val = args.map some)
      (made : op.evaluate .empty args ty = .ok v) : Yields load const val op ty (some v)

def Evaluates (load : Placeholder → Except Error Value) (const : Tensor → Value)
    (nodes : List Node) (val : NodeId → Option Value) : Prop :=
  ∀ (i : Nat) (n : Node), nodes[i]? = some n → Yields load const val n.op n.ty (val i)

/-- What a save sets aside. -/
def Node.saved? (val : NodeId → Option Value) (n : Node) : Option (Placeholder × Value) :=
  match n.op with
  | .save x p => ((val x).bind (·.duplicate.toOption)).map (p, ·)
  | _ => none

def Function.saved (f : Function) (val : NodeId → Option Value) : List (Placeholder × Value) :=
  f.nodes.filterMap (·.saved? val)

/-- The placeholders read, one for each input node. -/
def Function.sources (f : Function) : List Placeholder := f.nodes.filterMap (·.op.source?)

theorem Function.mem_sources {f : Function} {p : Placeholder} :
    p ∈ f.sources ↔ ∃ (i : Nat) (n : Node), f.nodes[i]? = some n ∧ n.op = .input p := by
  constructor
  · intro member
    obtain ⟨n, present, source⟩ := List.mem_filterMap.1 member
    obtain ⟨i, found⟩ := List.mem_iff_getElem?.1 present
    refine ⟨i, n, found, ?_⟩
    cases op : n.op <;> simp_all [Op.source?]
  · rintro ⟨i, n, found, op⟩
    exact List.mem_filterMap.2 ⟨n, List.mem_of_getElem? found, by simp [op, Op.source?]⟩

/-- Operands come first. -/
def Topological (nodes : List Node) : Prop :=
  ∀ (i : Nat) (n : Node), nodes[i]? = some n → ∀ x : Nat, x ∈ n.op.operands → x < i

/-- The value bound to a placeholder. -/
def Memory.load (μ : Memory) (p : Placeholder) : Except Error Value := do
  return μ.store.read (← μ.context.load p)

variable {load : Placeholder → Except Error Value} {const : Tensor → Value}

section

variable {ι κ : Type} {val : ι → Option Value} {op : Op ι} {ty : TensorType}
  {r r' : Option Value}

@[simp] theorem Op.evaluate_map (op : Op ι) (g : ι → κ) (σ : Store) (args : List Value)
    (ty : TensorType) : (op.map g).evaluate σ args ty = op.evaluate σ args ty := by
  cases op <;> rfl

@[simp] theorem Op.computes_map (op : Op ι) (g : ι → κ) :
    (op.map g).Computes ↔ op.Computes := by
  cases op <;> rfl

theorem Yields.of_computes (yields : Yields load const val op ty r) (computes : op.Computes) :
    ∃ args v, op.operands.map val = args.map some ∧ op.evaluate .empty args ty = .ok v ∧
      r = some v := by
  cases yields with
  | computed _ values made => exact ⟨_, _, values, made, rfl⟩
  | _ => exact computes.elim

theorem Yields.of_save (yields : Yields load const val op ty r) (save : op.isSave = true) :
    r = none := by
  cases yields with
  | save => rfl
  | input | constant => cases save
  | computed computes => cases save.symm.trans (op.isSave_of_computes computes)

theorem Yields.operand (yields : Yields load const val op ty r) {x : ι}
    (member : x ∈ op.operands) : ∃ v, val x = some v := by
  cases yields with
  | input | constant => cases member
  | save value copy => exact List.mem_singleton.1 member ▸ ⟨_, value⟩
  | @computed op ty args v computes values made =>
    have present : val x ∈ args.map some := values ▸ List.mem_map_of_mem member
    obtain ⟨v, -, value⟩ := List.mem_map.1 present
    exact ⟨v, value.symm⟩

theorem Yields.unique (first : Yields load const val op ty r)
    (second : Yields load const val op ty r') : r = r' := by
  cases first with
  | input bound =>
    cases second with
    | input bound' => rw [Except.ok.inj (bound.symm.trans bound')]
    | computed computes => exact computes.elim
  | constant =>
    cases second with
    | constant => rfl
    | computed computes => exact computes.elim
  | save =>
    cases second with
    | save => rfl
    | computed computes => exact computes.elim
  | computed computes values made =>
    obtain ⟨args', v', values', made', rfl⟩ := second.of_computes computes
    obtain rfl := (List.map_inj_right fun _ _ => Option.some.inj).1 (values.symm.trans values')
    rw [Except.ok.inj (made.symm.trans made')]

/-- Only the operands' values matter, under whatever names. -/
theorem Yields.map (yields : Yields load const val op ty r) {g : ι → κ}
    {val' : κ → Option Value} (same : ∀ x ∈ op.operands, val' (g x) = val x) :
    Yields load const val' (op.map g) ty r := by
  cases yields with
  | input bound => exact .input bound
  | constant => exact .constant
  | save value copy => exact .save ((same _ (List.mem_singleton_self _)).trans value) copy
  | computed computes values made =>
    refine .computed ((op.computes_map g).2 computes) ?_ ((op.evaluate_map g _ _ _).trans made)
    rw [op.operands_map, List.map_map, ← values]
    exact List.map_congr_left same

theorem Yields.const_congr (yields : Yields load const val op ty r) {const' : Tensor → Value}
    (same : ∀ t, op = .constant t → const' t = const t) : Yields load const' val op ty r := by
  cases yields with
  | input bound => exact .input bound
  | constant =>
    rw [← same _ rfl]
    exact .constant
  | save value copy => exact .save value copy
  | computed computes values made => exact .computed computes values made

theorem Yields.congr (yields : Yields load const val op ty r) {val' : ι → Option Value}
    (same : ∀ x ∈ op.operands, val' x = val x) : Yields load const val' op ty r := by
  rw [← op.map_id]
  exact yields.map same

end

variable {val : NodeId → Option Value} {n : Node} {nodes : List Node}

theorem Evaluates.congr (evaluates : Evaluates load const nodes val)
    (ordered : Topological nodes) {val' : NodeId → Option Value}
    (same : ∀ i < nodes.length, val' i = val i) : Evaluates load const nodes val' := by
  intro i n found
  have bound := (List.getElem?_eq_some_iff.1 found).1
  rw [same i bound]
  exact (evaluates i n found).congr fun x member =>
    same x (Nat.lt_trans (ordered i n found x member) bound)

theorem Topological.of_append (ordered : Topological (nodes ++ [n])) :
    Topological nodes ∧ ∀ x ∈ n.op.operands, x < nodes.length := by
  refine ⟨fun i m found => ordered i m ?_, ordered nodes.length n List.getElem?_concat_length⟩
  rw [List.getElem?_append_left (List.getElem?_eq_some_iff.1 found).1, found]

theorem Topological.take (ordered : Topological nodes) (k : Nat) : Topological (nodes.take k) := by
  intro i n found x member
  rw [List.getElem?_take] at found
  split at found
  · exact ordered i n found x member
  · cases found

theorem evaluates_append :
    Evaluates load const (nodes ++ [n]) val ↔
      Evaluates load const nodes val ∧ Yields load const val n.op n.ty (val nodes.length) := by
  constructor
  · intro evaluates
    refine ⟨fun i m found => evaluates i m ?_, evaluates _ n List.getElem?_concat_length⟩
    rw [List.getElem?_append_left (List.getElem?_eq_some_iff.1 found).1, found]
  · rintro ⟨before, last⟩ i m found
    rcases getElem?_concat found with found | ⟨rfl, rfl⟩
    · exact before i m found
    · exact last

theorem Node.saved?_of_computes (computes : n.op.Computes) : n.saved? val = none := by
  unfold Node.saved?
  split
  next op => exact (op ▸ computes).elim
  next => rfl

theorem Node.saved?_congr {val' : NodeId → Option Value}
    (same : ∀ x ∈ n.op.operands, val' x = val x) : n.saved? val' = n.saved? val := by
  unfold Node.saved?
  split
  next x p op => rw [same x (by rw [op]; exact List.mem_singleton_self x)]
  next => rfl

theorem Node.saved?_rename (n : Node) (g : NodeId → NodeId) (val : NodeId → Option Value) :
    (n.rename g).saved? val = n.saved? (val ∘ g) := by
  obtain ⟨name, op, ty⟩ := n
  cases op <;> rfl

theorem Node.saved?_of_not_save (other : n.op.isSave = false) : n.saved? val = none := by
  obtain ⟨name, op, ty⟩ := n
  cases op <;> first | rfl | cases other

/-- The valuation with a result for one more node. -/
def extended (val : NodeId → Option Value) (k : Nat) (r : Option Value) : NodeId → Option Value :=
  fun i => if i = k then r else val i

theorem Evaluates.extend (evaluates : Evaluates load const nodes val)
    (ordered : Topological nodes) (last : ∀ x ∈ n.op.operands, x < nodes.length)
    {r : Option Value} (yields : Yields load const val n.op n.ty r) :
    Evaluates load const (nodes ++ [n]) (extended val nodes.length r) := by
  have same : ∀ i < nodes.length, extended val nodes.length r i = val i := fun i bound =>
    if_neg (Nat.ne_of_lt bound)
  refine evaluates_append.2 ⟨evaluates.congr ordered same, ?_⟩
  rw [extended, if_pos rfl]
  exact yields.congr fun x member => same x (last x member)

namespace Interpreter

variable {μ : Memory}

/-- The walk that went through `k` nodes and found the values `val`. -/
def Walk.upTo (val : NodeId → Option Value) (nodes : List Node) : Walk :=
  ⟨(List.range nodes.length).map val, nodes.filterMap (·.saved? val)⟩

theorem operand_eq_ok {w : Walk} {k : Nat} (values : w.values = (List.range k).map val)
    {x : Nat} (bound : x < k) {v : Value} : w.operand n x = .ok v ↔ val x = some v := by
  have found : w.values[x]? = some (val x) := by
    rw [values, List.getElem?_map, List.getElem?_range bound]
    rfl
  rw [Walk.operand, found]
  cases val x <;> simp

theorem operands_eq_ok {w : Walk} {k : Nat} (values : w.values = (List.range k).map val)
    {xs : List NodeId} (bound : ∀ x ∈ xs, x < k) {args : List Value} :
    xs.mapM (w.operand n) = .ok args ↔ xs.map val = args.map some := by
  rw [mapM_eq_ok]
  induction xs generalizing args with
  | nil => cases args <;> simp
  | cons x xs ih =>
    cases args with
    | nil => simp
    | cons v args =>
      simp only [List.map_cons, List.cons.injEq]
      rw [operand_eq_ok values (bound x List.mem_cons_self),
        ih fun y member => bound y (List.mem_cons_of_mem x member)]

/-- The walk after one more node, which yields `r`. -/
def Walk.next (val : NodeId → Option Value) (nodes : List Node) (n : Node) (r : Option Value) :
    Walk :=
  ⟨(List.range nodes.length).map val ++ [r],
    nodes.filterMap (·.saved? val) ++ (n.saved? val).toList⟩

theorem next_of_unsaved (unsaved : n.saved? val = none) (r : Option Value) :
    Walk.next val nodes n r =
      { Walk.upTo val nodes with values := (Walk.upTo val nodes).values ++ [r] } := by
  simp [Walk.next, Walk.upTo, unsaved]

theorem step_computed_eq_ok (computes : n.op.Computes)
    (ordered : ∀ x ∈ n.op.operands, x < nodes.length) {w : Walk} :
    step μ (.upTo val nodes) n = .ok w ↔
      ∃ r, Yields μ.load μ.store.read val n.op n.ty r ∧ w = .next val nodes n r := by
  have unsaved : n.saved? val = none := Node.saved?_of_computes computes
  unfold step
  split
  next op => exact (op ▸ computes).elim
  next op => exact (op ▸ computes).elim
  next =>
    rw [bind_eq_ok]
    constructor
    · rintro ⟨args, values, rest⟩
      obtain ⟨v, made, same⟩ := bind_eq_ok.1 rest
      rw [operands_eq_ok rfl ordered] at values
      refine ⟨some v, .computed computes values ?_, ?_⟩
      · rw [Op.evaluate_store computes .empty μ.store, made]
      · rw [next_of_unsaved unsaved, ← Except.ok.inj same]
    · rintro ⟨r, yields, rfl⟩
      obtain ⟨args, v, values, made, rfl⟩ := yields.of_computes computes
      refine ⟨args, (operands_eq_ok rfl ordered).2 values, bind_eq_ok.2 ⟨v, ?_, ?_⟩⟩
      · rw [Op.evaluate_store computes μ.store .empty, made]
      · rw [next_of_unsaved unsaved]
        rfl

theorem step_eq_ok (ordered : ∀ x ∈ n.op.operands, x < nodes.length) {w : Walk} :
    step μ (.upTo val nodes) n = .ok w ↔
      ∃ r, Yields μ.load μ.store.read val n.op n.ty r ∧ w = .next val nodes n r := by
  obtain ⟨name, op, ty⟩ := n
  cases op with
  | input p =>
    constructor
    · intro stepped
      obtain ⟨t, bound, same⟩ := bind_eq_ok.1 stepped
      refine ⟨_, .input (bind_eq_ok.2 ⟨t, bound, rfl⟩), ?_⟩
      rw [next_of_unsaved rfl, ← Except.ok.inj same]
    · rintro ⟨r, yields, rfl⟩
      cases yields with
      | input bound =>
        obtain ⟨t, found, same⟩ := bind_eq_ok.1 bound
        cases same
        refine bind_eq_ok.2 ⟨t, found, ?_⟩
        rw [next_of_unsaved rfl]
        rfl
      | computed computes => exact computes.elim
  | constant t =>
    constructor
    · intro stepped
      refine ⟨_, .constant, ?_⟩
      rw [next_of_unsaved rfl, ← Except.ok.inj stepped]
    · rintro ⟨r, yields, rfl⟩
      cases yields with
      | constant =>
        rw [next_of_unsaved rfl]
        rfl
      | computed computes => exact computes.elim
  | save x p =>
    have bound : x < nodes.length := ordered x (List.mem_singleton_self x)
    have copied {v w : Value} (value : val x = some v) (copy : v.duplicate = .ok w) :
        Node.saved? val ⟨name, .save x p, ty⟩ = some (p, w) := by
      simp [Node.saved?, value, copy, Except.toOption]
    constructor
    · intro stepped
      obtain ⟨v, value, rest⟩ := bind_eq_ok.1 stepped
      obtain ⟨w, copy, same⟩ := bind_eq_ok.1 rest
      rw [operand_eq_ok rfl bound] at value
      refine ⟨none, .save value copy, ?_⟩
      rw [Walk.next, copied value copy, ← Except.ok.inj same]
      rfl
    · rintro ⟨r, yields, rfl⟩
      cases yields with
      | save value copy =>
        refine bind_eq_ok.2 ⟨_, (operand_eq_ok rfl bound).2 value, bind_eq_ok.2 ⟨_, copy, ?_⟩⟩
        rw [Walk.next, copied value copy]
        rfl
      | computed computes => exact computes.elim
  | _ => exact step_computed_eq_ok (by exact trivial) ordered

theorem Walk.upTo_append (val : NodeId → Option Value) (nodes : List Node) (n : Node) :
    Walk.upTo val (nodes ++ [n]) = .next val nodes n (val nodes.length) := by
  simp only [upTo, next, List.length_append, List.length_singleton, List.range_succ,
    List.map_append, List.map_singleton, List.filterMap_append]
  cases saved : n.saved? val <;> simp [saved]

theorem next_eq_upTo (ordered : Topological nodes) (last : ∀ x ∈ n.op.operands, x < nodes.length)
    (val : NodeId → Option Value) (r : Option Value) :
    Walk.next val nodes n r = .upTo (extended val nodes.length r) (nodes ++ [n]) := by
  have same : ∀ i < nodes.length, extended val nodes.length r i = val i := fun i bound =>
    if_neg (Nat.ne_of_lt bound)
  rw [Walk.upTo_append, Walk.next, Walk.next, Node.saved?_congr fun x member =>
    same x (last x member)]
  have values : (List.range nodes.length).map (extended val nodes.length r) =
      (List.range nodes.length).map val :=
    List.map_congr_left fun i member => same i (List.mem_range.1 member)
  have saves : nodes.filterMap (·.saved? (extended val nodes.length r)) =
      nodes.filterMap (·.saved? val) := by
    refine List.filterMap_congr fun m member => ?_
    obtain ⟨i, found⟩ := List.mem_iff_getElem?.1 member
    exact Node.saved?_congr fun x read => same x
      (Nat.lt_trans (ordered i m found x read) (List.getElem?_eq_some_iff.1 found).1)
  rw [values, saves, extended, if_pos rfl]

/-- A walk succeeds exactly when the nodes have a valuation, and holds that valuation. -/
theorem walk_eq_ok (ordered : Topological nodes) {w : Walk} :
    nodes.foldlM (step μ) .start = .ok w ↔
      ∃ val, Evaluates μ.load μ.store.read nodes val ∧ w = .upTo val nodes := by
  induction nodes using List.reverseRecOn generalizing w with
  | nil =>
    constructor
    · intro walked
      cases walked
      exact ⟨fun _ => none, fun i n found => by simp at found, rfl⟩
    · rintro ⟨val, -, rfl⟩
      rfl
  | append_singleton nodes n ih =>
    obtain ⟨before, last⟩ := ordered.of_append
    rw [List.foldlM_append, bind_eq_ok]
    constructor
    · rintro ⟨v, first, rest⟩
      obtain ⟨val, evaluates, rfl⟩ := (ih before).1 first
      rw [List.foldlM_cons, bind_eq_ok] at rest
      obtain ⟨w', stepped, same⟩ := rest
      cases same
      obtain ⟨r, yields, rfl⟩ := (step_eq_ok last).1 stepped
      exact ⟨_, evaluates.extend before last yields, next_eq_upTo before last val r⟩
    · rintro ⟨val, evaluates, rfl⟩
      obtain ⟨first, yields⟩ := evaluates_append.1 evaluates
      refine ⟨.upTo val nodes, (ih before).2 ⟨val, first, rfl⟩, ?_⟩
      rw [List.foldlM_cons, bind_eq_ok]
      refine ⟨_, (step_eq_ok last).2 ⟨_, yields, rfl⟩, ?_⟩
      rw [Walk.upTo_append]
      rfl

/-- Leaves the values set aside. -/
def deliverAll (saves : List (Placeholder × Value)) : Run Unit :=
  saves.forM fun (p, v) => Run.deliver p v

theorem run_eq (f : Function) (μ : Memory) :
    run f μ =
      match walk f μ with
      | .ok w => deliverAll w.saves μ
      | .error e => .error e μ := by
  rw [run, state_bind]
  cases walked : walk f μ with
  | ok w => simp only [state_get, state_bind, state_check, walked]; rfl
  | error e => simp only [state_get, state_bind, state_check, walked]

/-- A run succeeds exactly when there is a valuation whose saves can be left. -/
theorem run_eq_ok {f : Function} (ordered : Topological f.nodes) {μ μ' : Memory} :
    run f μ = .ok () μ' ↔ ∃ val, Evaluates μ.load μ.store.read f.nodes val ∧
      deliverAll (f.saved val) μ = .ok () μ' := by
  rw [run_eq]
  constructor
  · intro ran
    cases walked : walk f μ with
    | error e =>
      rw [walked] at ran
      cases ran
    | ok w =>
      rw [walked] at ran
      obtain ⟨val, evaluates, rfl⟩ := (walk_eq_ok ordered).1 walked
      exact ⟨val, evaluates, ran⟩
  · rintro ⟨val, evaluates, delivered⟩
    have walked : walk f μ = .ok (.upTo val f.nodes) := (walk_eq_ok ordered).2 ⟨val, evaluates, rfl⟩
    rw [walked]
    exact delivered

end Interpreter

theorem Function.Lawful.topological {declared : List Placeholder} {σ : Store} {f : Function}
    (lawful : f.Lawful declared σ) : Topological f.nodes :=
  fun _ _ found _ member => lawful.operand_lt found member

end TensorGraph
