import TensorGraph.Proofs.Control

/-!
Lists gone through step by step: mapping with a check, going on with what is left, and lists
that agree place by place.
-/

namespace TensorGraph

theorem mapM_eq_ok {ε α β : Type} {f : α → Except ε β} {xs : List α} {ys : List β} :
    xs.mapM f = .ok ys ↔ xs.map f = ys.map .ok := by
  induction xs generalizing ys with
  | nil => cases ys <;> simp
  | cons x xs ih =>
    rw [List.mapM_cons, bind_eq_ok]
    constructor
    · rintro ⟨y, head, rest⟩
      obtain ⟨tail, made, same⟩ := bind_eq_ok.1 rest
      cases same
      rw [List.map_cons, List.map_cons, head, ih.1 made]
    · intro same
      cases ys with
      | nil => cases same
      | cons y ys =>
        obtain ⟨head, tail⟩ := List.cons.inj same
        exact ⟨y, head, bind_eq_ok.2 ⟨ys, ih.2 tail, rfl⟩⟩

theorem exists_mapM_eq_ok {ε α β : Type} {f : α → Except ε β} {xs : List α}
    (passes : ∀ x ∈ xs, ∃ y, f x = .ok y) : ∃ ys, xs.mapM f = .ok ys := by
  induction xs with
  | nil => exact ⟨[], rfl⟩
  | cons x xs ih =>
    obtain ⟨head, tail⟩ := List.forall_mem_cons.1 passes
    obtain ⟨y, here⟩ := head
    obtain ⟨ys, later⟩ := ih tail
    exact ⟨y :: ys, by rw [List.mapM_cons, here, ok_bind, later]; rfl⟩

theorem mapM_eq_error {ε α β : Type} {f : α → Except ε β} {before after : List α} {x : α} {e : ε}
    (passes : ∀ y ∈ before, ∃ z, f y = .ok z) (fails : f x = .error e) :
    (before ++ x :: after).mapM f = .error e := by
  induction before with
  | nil => rw [List.nil_append, List.mapM_cons, fails, error_bind]
  | cons y rest ih =>
    obtain ⟨⟨z, here⟩, later⟩ := List.forall_mem_cons.1 passes
    rw [List.cons_append, List.mapM_cons, here, ok_bind, ih later, error_bind]

theorem mapM_eq_some {α β : Type} {f : α → Option β} {xs : List α} {ys : List β} :
    xs.mapM f = some ys ↔ xs.map f = ys.map some := by
  induction xs generalizing ys with
  | nil => cases ys <;> simp
  | cons x xs ih =>
    rw [List.mapM_cons]
    constructor
    · intro made
      obtain ⟨y, head, rest⟩ := Option.bind_eq_some_iff.1 made
      obtain ⟨tail, below, same⟩ := Option.bind_eq_some_iff.1 rest
      cases same
      rw [List.map_cons, List.map_cons, head, ih.1 below]
    · intro same
      cases ys with
      | nil => cases same
      | cons y ys =>
        obtain ⟨head, tail⟩ := List.cons.inj same
        rw [head, ih.2 tail]
        rfl

theorem mapM_option_map {α β γ : Type} {f : α → β} {g : β → Option γ} {h : α → γ} {xs : List α}
    (reads : ∀ x ∈ xs, g (f x) = some (h x)) : (xs.map f).mapM g = some (xs.map h) := by
  refine mapM_eq_some.2 ?_
  rw [List.map_map, List.map_map]
  exact List.map_congr_left reads

theorem mapM_option_inverse {α β : Type} {f : α → β} {g : β → Option α} {xs : List α}
    (reads : ∀ x ∈ xs, g (f x) = some x) : (xs.map f).mapM g = some xs :=
  (mapM_option_map (h := id) reads).trans (by rw [List.map_id])

theorem mapM_range {α : Type} {xs : List α} {g : Nat → Option α}
    (each : ∀ i x, xs[i]? = some x → g i = some x) : (List.range xs.length).mapM g = some xs := by
  refine mapM_eq_some.2 (List.ext_getElem (by simp) fun i left right => ?_)
  rw [List.getElem_map, List.getElem_map, List.getElem_range]
  exact each i _ (List.getElem?_eq_getElem (by simpa using right))

theorem exists_map_eq_some {α β : Type} {f : α → Option β} {xs : List α}
    (present : ∀ x ∈ xs, ∃ y, f x = some y) : ∃ ys : List β, xs.map f = ys.map some := by
  induction xs with
  | nil => exact ⟨[], rfl⟩
  | cons x xs ih =>
    obtain ⟨y, head⟩ := present x List.mem_cons_self
    obtain ⟨ys, tail⟩ := ih fun z member => present z (List.mem_cons_of_mem x member)
    exact ⟨y :: ys, by rw [List.map_cons, List.map_cons, head, tail]⟩

theorem drop_eq_cons {α : Type} {xs rest : List α} {k : Nat} {x : α}
    (left : xs.drop k = x :: rest) : xs[k]? = some x ∧ xs.drop (k + 1) = rest := by
  constructor
  · rw [← List.head?_drop, left, List.head?_cons]
  · rw [← List.tail_drop, left, List.tail_cons]

theorem getElem?_concat {α : Type} {xs : List α} {x y : α} {i : Nat}
    (found : (xs ++ [x])[i]? = some y) : xs[i]? = some y ∨ i = xs.length ∧ x = y := by
  rcases Nat.lt_trichotomy i xs.length with bound | rfl | bound
  · rw [List.getElem?_append_left bound] at found
    exact .inl found
  · rw [List.getElem?_concat_length] at found
    exact .inr ⟨rfl, Option.some.inj found⟩
  · rw [List.getElem?_eq_none (by simp; omega)] at found
    cases found

theorem getElem?_of_prefix {α : Type} {xs ys : List α} (before : xs <+: ys) {i : Nat} {x : α}
    (found : xs[i]? = some x) : ys[i]? = some x := by
  obtain ⟨more, rfl⟩ := before
  rw [List.getElem?_append_left (List.getElem?_eq_some_iff.1 found).1, found]

theorem append_singleton_eq_split {α : Type} {xs before after : List α} {x y : α}
    (split : xs ++ [x] = before ++ y :: after) :
    (after = [] ∧ y = x ∧ before = xs) ∨
      ∃ rest, after = rest ++ [x] ∧ xs = before ++ y :: rest := by
  rcases List.eq_nil_or_concat after with rfl | ⟨rest, z, rfl⟩
  · obtain ⟨same, last⟩ := List.append_inj' split rfl
    cases last
    exact .inl ⟨rfl, rfl, same.symm⟩
  · rw [List.concat_eq_append, ← List.cons_append, ← List.append_assoc] at split
    obtain ⟨same, last⟩ := List.append_inj' split rfl
    cases last
    exact .inr ⟨rest, List.concat_eq_append, same⟩

theorem nodup_eraseDups : ∀ xs : List Nat, xs.eraseDups.Nodup
  | [] => List.nodup_nil
  | x :: xs => by
    rw [List.eraseDups_cons, List.nodup_cons]
    refine ⟨fun member => ?_, nodup_eraseDups _⟩
    have kept := (List.mem_filter.1 (List.mem_eraseDups.1 member)).2
    simp at kept
termination_by xs => xs.length
decreasing_by exact Nat.lt_succ_of_le (List.length_filter_le _ _)

theorem eq_of_map_eq {α β : Type} {g : α → β} {xs ys : List α}
    (injective : ∀ x ∈ xs, ∀ y ∈ ys, g x = g y → x = y) (same : xs.map g = ys.map g) :
    xs = ys := by
  induction xs generalizing ys with
  | nil => exact (List.map_eq_nil_iff.1 same.symm).symm
  | cons x xs ih =>
    cases ys with
    | nil => cases same
    | cons y ys =>
      obtain ⟨head, tail⟩ := List.cons.inj same
      rw [injective x List.mem_cons_self y List.mem_cons_self head, ih (fun x left y right =>
        injective x (List.mem_cons_of_mem _ left) y (List.mem_cons_of_mem _ right)) tail]

theorem map_eq_map_of_pointwise {α β γ : Type} {F : α → γ} {G : β → γ} {xs : List α} {ys : List β}
    (length : ys.length = xs.length)
    (same : ∀ (i : Nat) (x : α) (y : β), xs[i]? = some x → ys[i]? = some y → G y = F x) :
    ys.map G = xs.map F := by
  refine List.ext_getElem (by simpa using length) fun i left right => ?_
  rw [List.length_map] at left right
  rw [List.getElem_map, List.getElem_map]
  exact same i _ _ (List.getElem?_eq_getElem right) (List.getElem?_eq_getElem left)

theorem filterMap_eq_of_pointwise {α β γ : Type} {F : α → Option γ} {G : β → Option γ}
    {xs : List α} {ys : List β} (length : ys.length = xs.length)
    (same : ∀ (i : Nat) (x : α) (y : β), xs[i]? = some x → ys[i]? = some y → G y = F x) :
    ys.filterMap G = xs.filterMap F :=
  calc ys.filterMap G = (ys.map G).filterMap id := by rw [List.filterMap_map]; rfl
    _ = (xs.map F).filterMap id := by rw [map_eq_map_of_pointwise length same]
    _ = xs.filterMap F := by rw [List.filterMap_map]; rfl

theorem flatMap_eq_flatMap_iff {α β : Type} {f g : α → List β} {xs : List α}
    (even : ∀ x ∈ xs, (f x).length = (g x).length) :
    xs.flatMap f = xs.flatMap g ↔ ∀ x ∈ xs, f x = g x := by
  induction xs with
  | nil => simp
  | cons x xs ih =>
    have rest := ih fun y member => even y (List.mem_cons_of_mem x member)
    rw [List.flatMap_cons, List.flatMap_cons, List.forall_mem_cons, ← rest]
    exact ⟨fun same => List.append_inj same (even x List.mem_cons_self),
      fun same => by rw [same.1, same.2]⟩

end TensorGraph
