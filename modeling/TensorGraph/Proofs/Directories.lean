import TensorGraph.Proofs.FileSystem

/-!
What creating a directory changes. The only new entries are directories that the path leads
through, each where nothing was, and every path that led somewhere still leads there.
-/

namespace TensorGraph

/-- A place that a path passes or ends at when every name leads on. -/
def Path.Passes (path : Path) (q : Location) : Prop :=
  ∃ k, q = (path.names.take k).foldl Location.follow []

namespace FileSystem

variable {fs gs hs : FileSystem} {path : Path} {place q : Location} {bytes : Bytes}

/-- A directory that came to be on the way of a path. -/
structure Created (fs gs : FileSystem) (path : Path) (q : Location) : Prop where
  absent : fs.entry? q = none
  made : gs.entry? q = some .directory
  passed : path.Passes q

/-- Nothing but directories on the way of a path came to be, and nothing went. -/
def Extends (fs gs : FileSystem) (path : Path) : Prop :=
  ∀ q, gs.entry? q = fs.entry? q ∨ Created fs gs path q

theorem Extends.refl (fs : FileSystem) (path : Path) : Extends fs fs path := fun _ => .inl rfl

theorem Extends.entry? (grown : Extends fs gs path) {e : FileEntry}
    (here : fs.entry? q = some e) : gs.entry? q = some e := by
  rcases grown q with same | created
  · rw [same, here]
  · rw [created.absent] at here
    cases here

theorem createAlong_spec (names : List String) (fs : FileSystem) (start q : Location) :
    entry? (fs.createAlong start names) q = fs.entry? q ∨
      fs.entry? q = none ∧ entry? (fs.createAlong start names) q = some .directory ∧
        ∃ k, q = (names.take k).foldl Location.follow start := by
  induction names generalizing fs start with
  | nil => exact .inl rfl
  | cons name rest ih =>
    unfold createAlong
    split
    next => exact .inl rfl
    next next step =>
      have led : Location.follow start name = next := by
        unfold step? at step
        split at step
        next => exact Option.some.inj step
        next => cases step
      -- What the rest of the names creates lies one name further on the whole way.
      have further : (∃ k, q = (rest.take k).foldl Location.follow next) →
          ∃ k, q = ((name :: rest).take k).foldl Location.follow start := by
        rintro ⟨k, rfl⟩
        exact ⟨k + 1, by rw [List.take_succ_cons, List.foldl_cons, led]⟩
      split
      next empty =>
        have clear : fs.entry? next ≠ some .directory := by simp [empty]
        have entries := entry?_insert clear .directory
        rcases ih ⟨fs.entries.insert next .directory⟩ next with same | ⟨absent, made, passed⟩
        · rw [same, entries]
          split
          next here =>
            subst here
            exact .inr ⟨empty, rfl, 1, by simp [led]⟩
          next => exact .inl rfl
        · refine .inr ⟨?_, made, further passed⟩
          rw [entries] at absent
          split at absent
          next => cases absent
          next => exact absent
      next =>
        rcases ih fs next with same | ⟨absent, made, passed⟩
        · exact .inl same
        · exact .inr ⟨absent, made, further passed⟩

theorem creatable_eq_take (path : Path) : ∃ k, path.creatable = path.names.take k := by
  simp only [Path.creatable]
  split
  next => exact ⟨_, by rw [List.dropLast_eq_take, List.take_take]⟩
  next => exact ⟨path.names.length, by rw [List.take_length]⟩

theorem createDirectories_extends (fs : FileSystem) (path : Path) :
    Extends fs (fs.createDirectories path) path := by
  unfold createDirectories
  split
  next =>
    intro q
    obtain ⟨k, created⟩ := creatable_eq_take path
    rcases createAlong_spec path.creatable fs [] q with same | ⟨absent, made, j, passed⟩
    · exact .inl same
    · refine .inr ⟨absent, made, min j k, ?_⟩
      rw [passed, created, List.take_take]
  next => exact .refl fs path

theorem foldlM_step? {names : List String} {start : Location}
    (led : names.foldlM fs.step? start = some q) : q = names.foldl Location.follow start := by
  induction names generalizing start with
  | nil => exact (Option.some.inj led).symm
  | cons name rest ih =>
    rw [List.foldlM_cons] at led
    obtain ⟨next, step, led⟩ := Option.bind_eq_some_iff.1 led
    unfold step? at step
    split at step
    next =>
      cases step
      exact ih led
    next => cases step

end FileSystem

namespace Location

theorem length_le_foldl_follow {names : List String} (forward : ".." ∉ names) (start : Location) :
    start.length ≤ (names.foldl follow start).length := by
  induction names generalizing start with
  | nil => exact Nat.le_refl _
  | cons name rest ih =>
    obtain ⟨other, forward⟩ := List.ne_and_not_mem_of_not_mem_cons forward
    refine Nat.le_trans ?_ (ih forward _)
    unfold follow
    split
    · exact Nat.le_refl _
    · rw [if_neg other.symm, List.length_append]
      exact Nat.le_add_right _ _

end Location

/-- A path that never goes up passes nothing deeper than its end. -/
theorem Path.Passes.length_le {path : Path} {q : Location} (passed : path.Passes q)
    (forward : ".." ∉ path.names) :
    q.length ≤ (path.names.foldl Location.follow []).length := by
  obtain ⟨k, rfl⟩ := passed
  have later : ".." ∉ path.names.drop k := fun member => forward (List.mem_of_mem_drop member)
  have split : path.names.foldl Location.follow [] =
      (path.names.drop k).foldl Location.follow ((path.names.take k).foldl Location.follow []) := by
    rw [← List.foldl_append, List.take_append_drop]
  rw [split]
  exact Location.length_le_foldl_follow later _

end TensorGraph
