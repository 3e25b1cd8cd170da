/-!
Finite tables with unique keys. An entry keeps its place when its value is replaced, and a
new key goes last.
-/

namespace TensorGraph

structure Table (κ α : Type) where
  entries : List (κ × α)
  deriving DecidableEq, Repr

namespace Table

variable {κ α : Type} [DecidableEq κ]

def empty : Table κ α := ⟨[]⟩

instance : Inhabited (Table κ α) := ⟨empty⟩

def size (t : Table κ α) : Nat := t.entries.length
def isEmpty (t : Table κ α) : Bool := t.entries.isEmpty
def keys (t : Table κ α) : List κ := t.entries.map (·.1)
def get? (t : Table κ α) (k : κ) : Option α := (t.entries.find? (·.1 = k)).map (·.2)
def contains (t : Table κ α) (k : κ) : Bool := (t.get? k).isSome

/-- Entries with `k` set to `a`. -/
def put (k : κ) (a : α) : List (κ × α) → List (κ × α)
  | [] => [(k, a)]
  | e :: rest => if e.1 = k then (k, a) :: rest else e :: put k a rest

def insert (t : Table κ α) (k : κ) (a : α) : Table κ α := ⟨put k a t.entries⟩

def erase (t : Table κ α) (k : κ) : Table κ α := ⟨t.entries.filter (·.1 ≠ k)⟩

@[simp] theorem get?_empty (k : κ) : (empty : Table κ α).get? k = none := rfl

theorem get?_insert (t : Table κ α) (k k' : κ) (a : α) :
    (t.insert k a).get? k' = if k' = k then some a else t.get? k' := by
  obtain ⟨entries⟩ := t
  simp only [get?, insert]
  induction entries with
  | nil => by_cases h : k = k' <;> simp [put, h, eq_comm]
  | cons e rest ih =>
    by_cases h : e.1 = k
    · subst h
      by_cases h' : k' = e.1
      · simp [put, h']
      · simp [put, h', Ne.symm h']
    · by_cases h' : e.1 = k'
      · subst h'
        simp [put, h]
      · simpa [put, h, h'] using ih

@[simp] theorem get?_insert_self (t : Table κ α) (k : κ) (a : α) :
    (t.insert k a).get? k = some a := by simp [get?_insert]

theorem get?_insert_ne (t : Table κ α) {k k' : κ} (h : k' ≠ k) (a : α) :
    (t.insert k a).get? k' = t.get? k' := by simp [get?_insert, h]

theorem get?_erase (t : Table κ α) (k k' : κ) :
    (t.erase k).get? k' = if k' = k then none else t.get? k' := by
  obtain ⟨entries⟩ := t
  simp only [get?, erase]
  induction entries with
  | nil => simp
  | cons e rest ih =>
    by_cases h : e.1 = k
    · subst h
      by_cases h' : k' = e.1
      · subst h'
        simp
      · simpa [h', Ne.symm h'] using ih
    · by_cases h' : e.1 = k'
      · subst h'
        simp [h]
      · simpa [h, h'] using ih

end Table
end TensorGraph
