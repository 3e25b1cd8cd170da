import Mathlib.Data.List.Nodup
import TensorGraph.Engine.Registry

/-!
What is registered. A table never holds two entries for a key, so the sorted names list each
registered name once, and looking up without a name tells apart no entry, one, and several.
-/

namespace TensorGraph

namespace Table

variable {κ α : Type} [DecidableEq κ] {t : Table κ α} {k : κ}

theorem mem_keys : k ∈ t.keys ↔ ∃ a, t.get? k = some a := by
  obtain ⟨entries⟩ := t
  simp only [keys, get?, List.mem_map, Option.map_eq_some_iff]
  constructor
  · rintro ⟨entry, member, rfl⟩
    have found : (entries.find? (·.1 = entry.1)).isSome := by
      rw [List.find?_isSome]
      exact ⟨entry, member, by simp⟩
    obtain ⟨other, found⟩ := Option.isSome_iff_exists.1 found
    exact ⟨other.2, other, found, rfl⟩
  · rintro ⟨a, entry, found, -⟩
    exact ⟨entry, List.mem_of_find?_eq_some found, by simpa using List.find?_some found⟩

theorem map_put (k : κ) (a : α) (entries : List (κ × α)) :
    (put k a entries).map (·.1) =
      if k ∈ entries.map (·.1) then entries.map (·.1) else entries.map (·.1) ++ [k] := by
  induction entries with
  | nil => rfl
  | cons entry rest ih =>
    by_cases same : entry.1 = k
    · simp [put, same]
    · rw [put, if_neg same, List.map_cons, ih, List.map_cons]
      simp only [List.mem_cons, Ne.symm same, false_or]
      split <;> rfl

/-- No key has two entries. -/
def Distinct (t : Table κ α) : Prop := t.keys.Nodup

omit [DecidableEq κ] in
theorem distinct_empty : (empty : Table κ α).Distinct := List.nodup_nil

theorem Distinct.insert (distinct : t.Distinct) (k : κ) (a : α) : (t.insert k a).Distinct := by
  unfold Distinct keys Table.insert
  rw [map_put]
  split
  next => exact distinct
  next new => exact List.nodup_append.2 ⟨distinct, List.nodup_singleton k, by
    rintro x member y last rfl
    exact new (List.mem_singleton.1 last ▸ member)⟩

end Table

namespace Registry

variable {r : Registry}

theorem lookup_eq_ok {name : String} {exe : Executable} :
    r.lookup name = .ok exe ↔ r.get? name = some exe := by
  unfold lookup
  cases r.get? name <;> simp

theorem mem_names {name : String} : name ∈ r.names ↔ ∃ exe, r.get? name = some exe := by
  rw [names, List.mem_mergeSort]
  exact Table.mem_keys

theorem names_sorted (distinct : r.Distinct) : r.names.Pairwise (· < ·) := by
  have ordered : r.names.Pairwise fun a b => decide (a ≤ b) = true := by
    refine List.pairwise_mergeSort (fun a b c first second => ?_) (fun a b => ?_) r.keys
    · simp only [decide_eq_true_eq] at first second ⊢
      exact String.le_trans first second
    · simpa using String.le_total a b
  have once : r.names.Nodup := (List.mergeSort_perm _ _).nodup_iff.2 distinct
  refine (List.pairwise_and_iff.2 ⟨ordered, once⟩).imp fun {a b} both => ?_
  exact String.not_le.1 fun back =>
    both.2 (String.le_antisymm (of_decide_eq_true both.1) back)

theorem length_names (r : Registry) : r.names.length = r.entries.length := by
  simp [names, Table.keys]

theorem lookupSole_of_none (none : r.names = []) :
    r.lookupSole = .error (.noSuchFunction "") := by
  have length := r.length_names
  obtain ⟨entries⟩ := r
  rw [none, List.length_nil] at length
  obtain rfl := List.length_eq_zero_iff.1 length.symm
  rfl

theorem lookupSole_of_one {name : String} (one : r.names = [name]) :
    r.lookupSole = r.lookup name := by
  have length := r.length_names
  obtain ⟨entries⟩ := r
  rw [one, List.length_singleton] at length
  obtain ⟨⟨key, exe⟩, rfl⟩ := List.length_eq_one_iff.1 length.symm
  obtain rfl : key = name := by simpa [names, Table.keys] using one
  simp [lookupSole, lookup, Table.get?]

theorem lookupSole_of_several (several : 2 ≤ r.names.length) :
    r.lookupSole = .error (.ambiguousFunction r.names) := by
  rw [length_names] at several
  obtain ⟨_ | ⟨first, _ | ⟨second, rest⟩⟩⟩ := r
  · simp at several
  · simp at several
  · rfl

end Registry
end TensorGraph
