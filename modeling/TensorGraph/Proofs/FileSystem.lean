import TensorGraph.FileSystem

/-!
What writing, renaming and removing a file change. None of them makes or unmakes a directory, so
every path leads to the same place before and after, and only the places of the files they name
hold something else.
-/

namespace TensorGraph.FileSystem

variable {fs gs hs : FileSystem} {path source target : Path} {bytes : Bytes} {place : Location}

/-- The same places are directories. -/
def SameDirectories (fs gs : FileSystem) : Prop :=
  ∀ place, gs.entry? place = some .directory ↔ fs.entry? place = some .directory

theorem SameDirectories.refl (fs : FileSystem) : fs.SameDirectories fs := fun _ => Iff.rfl

theorem SameDirectories.trans (first : fs.SameDirectories gs) (second : gs.SameDirectories hs) :
    fs.SameDirectories hs := fun place => (second place).trans (first place)

theorem SameDirectories.step? (same : fs.SameDirectories gs) (place : Location) (name : String) :
    gs.step? place name = fs.step? place name := by
  simp only [FileSystem.step?, same place]

/-- Where a path leads is a matter of directories alone. -/
theorem SameDirectories.locate? (same : fs.SameDirectories gs) (path : Path) :
    gs.locate? path = fs.locate? path := by
  have steps : gs.step? = fs.step? := by
    funext place name
    exact same.step? place name
  simp only [FileSystem.locate?, steps]

theorem locate?_mono (kept : ∀ q, fs.entry? q = some .directory → gs.entry? q = some .directory)
    (located : fs.locate? path = some place) : gs.locate? path = some place := by
  have steps {names : List String} {start : Location}
      (led : names.foldlM fs.step? start = some place) :
      names.foldlM gs.step? start = some place := by
    induction names generalizing start with
    | nil => exact led
    | cons name rest ih =>
      obtain ⟨next, step, led⟩ := Option.bind_eq_some_iff.1 led
      refine Option.bind_eq_some_iff.2 ⟨next, ?_, ih led⟩
      unfold FileSystem.step? at step ⊢
      split at step
      next allowed => rw [if_pos ⟨kept _ allowed.1, allowed.2⟩, step]
      next => cases step
  unfold FileSystem.locate? at located ⊢
  split at located
  next usable => rw [if_pos usable, steps located]
  next => cases located

theorem fileAt?_eq_some : fs.fileAt? path = some bytes ↔
    ∃ place, fs.locate? path = some place ∧ fs.entry? place = some (.file bytes) := by
  have found : fs.fileAt? path = some bytes ↔ fs.lookup? path = some (.file bytes) := by
    unfold fileAt?
    split
    next other here => simp [here]
    next other =>
      refine ⟨fun absurd => (nomatch absurd), fun here => (other bytes here).elim⟩
  rw [found, lookup?, Option.bind_eq_some_iff]

theorem SameDirectories.fileAt? (same : fs.SameDirectories gs)
    (located : fs.locate? path = some place) (file : gs.entry? place = some (.file bytes)) :
    gs.fileAt? path = some bytes :=
  fileAt?_eq_some.2 ⟨place, by rw [same.locate?, located], file⟩

theorem target?_eq_some : fs.target? path = some place ↔
    fs.locate? path = some place ∧ fs.entry? place ≠ some .directory := by
  simp [target?, Option.filter_eq_some_iff]

theorem SameDirectories.target? (same : fs.SameDirectories gs) (path : Path) :
    gs.target? path = fs.target? path := by
  simp only [FileSystem.target?, same.locate?, ne_eq, same _]

theorem SameDirectories.isDirectory (same : fs.SameDirectories gs) (path : Path) :
    gs.isDirectory path = fs.isDirectory path := by
  simp only [FileSystem.isDirectory, lookup?, same.locate?, Option.bind_eq_some_iff, same _]

theorem entry?_insert (clear : fs.entry? place ≠ some .directory) (e : FileEntry) (q : Location) :
    entry? ⟨fs.entries.insert place e⟩ q = if q = place then some e else fs.entry? q := by
  have inner : place ≠ [] := by
    rintro rfl
    exact clear rfl
  by_cases same : q = place
  · subst same
    unfold entry?
    rw [if_neg inner, Table.get?_insert_self, if_pos rfl]
  · unfold entry?
    rw [Table.get?_insert_ne _ same, if_neg same]

theorem entry?_erase (inner : place ≠ []) (q : Location) :
    entry? ⟨fs.entries.erase place⟩ q = if q = place then none else fs.entry? q := by
  by_cases same : q = place
  · subst same
    unfold entry?
    rw [if_neg inner, Table.get?_erase, if_pos rfl, if_pos rfl]
  · unfold entry?
    rw [Table.get?_erase, if_neg same, if_neg same]

theorem writeFile?_spec (written : fs.writeFile? path bytes = some gs) :
    ∃ place, fs.locate? path = some place ∧ fs.SameDirectories gs ∧
      ∀ q, gs.entry? q = if q = place then some (.file bytes) else fs.entry? q := by
  obtain ⟨place, aimed, same⟩ := Option.bind_eq_some_iff.1 written
  cases same
  obtain ⟨located, clear⟩ := target?_eq_some.1 aimed
  have entries := entry?_insert clear (.file bytes)
  refine ⟨place, located, fun q => ?_, entries⟩
  rw [entries]
  split
  next here =>
    subst here
    simp [clear]
  next => rfl

theorem exists_rewritten (found : fs.fileAt? path = some bytes) (contents : Bytes) :
    ∃ gs, fs.writeFile? path contents = some gs ∧ gs.fileAt? path = some contents := by
  obtain ⟨place, located, file⟩ := fileAt?_eq_some.1 found
  have aimed : fs.target? path = some place := target?_eq_some.2 ⟨located, by simp [file]⟩
  have written : fs.writeFile? path contents = some ⟨fs.entries.insert place (.file contents)⟩ := by
    simp [writeFile?, aimed]
  obtain ⟨_, same, kept, entries⟩ := writeFile?_spec written
  cases located.symm.trans same
  exact ⟨_, written, kept.fileAt? located (by simp [entries])⟩

theorem rename?_spec (found : fs.fileAt? source = some bytes)
    (renamed : fs.rename? source target = some gs) :
    ∃ origin goal, fs.locate? source = some origin ∧ fs.locate? target = some goal ∧
      fs.SameDirectories gs ∧
      ∀ q, gs.entry? q =
        if q = goal then some (.file bytes) else if q = origin then none else fs.entry? q := by
  obtain ⟨origin, located, file⟩ := fileAt?_eq_some.1 found
  simp only [rename?, found, located, Option.bind_eq_bind, Option.bind_some] at renamed
  obtain ⟨goal, aimed, same⟩ := Option.bind_eq_some_iff.1 renamed
  cases same
  obtain ⟨reached, clear⟩ := target?_eq_some.1 aimed
  have inner : origin ≠ [] := by
    rintro rfl
    cases file
  have erased : ∀ q, entry? ⟨fs.entries.erase origin⟩ q =
      if q = origin then none else fs.entry? q := entry?_erase inner
  have clear' : entry? ⟨fs.entries.erase origin⟩ goal ≠ some .directory := by
    rw [erased]
    split
    next => exact fun absurd => nomatch absurd
    next => exact clear
  have entries : ∀ q, entry? ⟨(fs.entries.erase origin).insert goal (.file bytes)⟩ q =
      if q = goal then some (.file bytes) else if q = origin then none else fs.entry? q := by
    intro q
    rw [← erased]
    exact entry?_insert clear' (.file bytes) q
  refine ⟨origin, goal, located, reached, fun q => ?_, entries⟩
  rw [entries]
  split
  next here =>
    subst here
    simp [clear]
  next =>
    split
    next here =>
      subst here
      simp [file]
    next => rfl

theorem rename?_eq_none (found : fs.fileAt? source = some bytes)
    (refused : fs.rename? source target = none) : fs.target? target = none := by
  obtain ⟨origin, located, -⟩ := fileAt?_eq_some.1 found
  simp only [rename?, found, located, Option.bind_eq_bind, Option.bind_some] at refused
  cases aimed : fs.target? target with
  | none => rfl
  | some goal =>
    rw [aimed] at refused
    cases refused

theorem removeFile?_spec (removed : fs.removeFile? path = some gs) :
    ∃ place, fs.locate? path = some place ∧ fs.entry? place ≠ some .directory ∧
      ∀ q, gs.entry? q = if q = place then none else fs.entry? q := by
  obtain ⟨bytes, found, removed⟩ := Option.bind_eq_some_iff.1 removed
  obtain ⟨place, located, file⟩ := fileAt?_eq_some.1 found
  rw [located] at removed
  cases removed
  have inner : place ≠ [] := by
    rintro rfl
    cases file
  exact ⟨place, located, by simp [file], entry?_erase inner⟩

theorem removeFile?_eq_none (refused : fs.removeFile? path = none)
    (located : fs.locate? path = some place) (clear : fs.entry? place ≠ some .directory) :
    fs.entry? place = none := by
  cases here : fs.entry? place with
  | none => rfl
  | some e =>
    cases e with
    | directory => exact (clear here).elim
    | file bytes =>
      rw [removeFile?, fileAt?_eq_some.2 ⟨place, located, here⟩, located] at refused
      cases refused

/-- Two paths that never lead to one place. -/
def Apart (fs : FileSystem) (p q : Path) : Prop :=
  ∀ place, fs.locate? p = some place → fs.locate? q ≠ some place

theorem Apart.congr {p q : Path} (apart : fs.Apart p q) (same : fs.SameDirectories gs) :
    gs.Apart p q := by
  intro place
  rw [same.locate? p, same.locate? q]
  exact apart place

/-- Whether a name leads into a directory, rather than to itself or the one above. -/
def Proper (name : String) : Prop := Path.staysPut name = false ∧ name ≠ ".."

theorem locate?_concat {base : List String} {name : String} (proper : Proper name)
    (located : fs.locate? ⟨base ++ [name]⟩ = some place) :
    ∃ parent, base.foldlM fs.step? [] = some parent ∧ place = parent ++ [name] := by
  unfold FileSystem.locate? at located
  split at located
  next =>
    rw [List.foldlM_append] at located
    obtain ⟨parent, above, step⟩ := Option.bind_eq_some_iff.1 located
    refine ⟨parent, above, ?_⟩
    simp only [List.foldlM_cons, List.foldlM_nil, bind_pure, FileSystem.step?] at step
    split at step
    next =>
      rw [← Option.some.inj step, Location.follow, proper.1, if_neg (by decide), if_neg proper.2]
    next => cases step
  next => cases located

theorem apart_of_names {base : List String} {n m : String} (left : Proper n) (right : Proper m)
    (different : n ≠ m) : fs.Apart ⟨base ++ [n]⟩ ⟨base ++ [m]⟩ := by
  intro place here there
  obtain ⟨parent, above, rfl⟩ := locate?_concat left here
  obtain ⟨parent', above', same⟩ := locate?_concat right there
  obtain ⟨-, names⟩ := List.append_inj' same rfl
  exact different (List.cons.inj names).1

end TensorGraph.FileSystem
