import TensorGraph.Proofs.Bundle.Writing

/-!
Writing a bundle that fails. At every moment a place that differs from the start belongs to a file
that the call has put there, or is empty because the call has moved its file on. What a refused
step removes is just what was put, so that in the end each place is as at the start or empty.
-/

namespace TensorGraph.Bundle

variable {start fs gs : FileSystem} {placed placed' vacated vacated' : List Path}
  {path source target : Path} {bytes : Bytes} {q : Location}

/-- What is at a place: what was there at the start, a file that was put there, or nothing after
a file was taken from there. -/
def Explained (start : FileSystem) (placed vacated : List Path) (fs : FileSystem) (q : Location) :
    Prop :=
  fs.entry? q = start.entry? q ∨ (∃ p ∈ placed, start.locate? p = some q) ∨
    (∃ p ∈ vacated, start.locate? p = some q) ∧ fs.entry? q = none

theorem Explained.mono (explained : Explained start placed vacated fs q)
    (more : placed ⊆ placed') (more' : vacated ⊆ vacated') :
    Explained start placed' vacated' fs q := by
  rcases explained with same | ⟨p, member, located⟩ | ⟨⟨p, member, located⟩, empty⟩
  · exact .inl same
  · exact .inr (.inl ⟨p, more member, located⟩)
  · exact .inr (.inr ⟨⟨p, more' member, located⟩, empty⟩)

theorem Explained.elsewhere (explained : Explained start (path :: placed) vacated fs q)
    (elsewhere : start.locate? path ≠ some q) : Explained start placed vacated fs q := by
  rcases explained with same | ⟨p, member, located⟩ | empty
  · exact .inl same
  · rcases List.mem_cons.1 member with rfl | member
    · exact (elsewhere located).elim
    · exact .inr (.inl ⟨p, member, located⟩)
  · exact .inr (.inr empty)

/-- What has changed since the start. -/
structure Accounted (start : FileSystem) (placed vacated : List Path) (fs : FileSystem) :
    Prop where
  directories : start.SameDirectories fs
  places : ∀ q, Explained start placed vacated fs q

namespace Accounted

theorem refl (fs : FileSystem) : Accounted fs [] [] fs := ⟨.refl fs, fun _ => .inl rfl⟩

theorem mono (accounted : Accounted start placed vacated fs) (more : placed ⊆ placed')
    (more' : vacated ⊆ vacated') : Accounted start placed' vacated' fs :=
  ⟨accounted.directories, fun q => (accounted.places q).mono more more'⟩

theorem write (accounted : Accounted start placed vacated fs)
    (written : fs.writeFile? path bytes = some gs) :
    Accounted start (path :: placed) vacated gs := by
  obtain ⟨place, located, same, entries⟩ := FileSystem.writeFile?_spec written
  rw [accounted.directories.locate?] at located
  refine ⟨accounted.directories.trans same, fun q => ?_⟩
  by_cases here : q = place
  · exact .inr (.inl ⟨path, List.mem_cons_self, here ▸ located⟩)
  · rw [Explained, entries, if_neg here]
    exact (accounted.places q).mono (List.subset_cons_self _ _) (List.Subset.refl _)

theorem rename (accounted : Accounted start (source :: placed) vacated fs)
    (found : fs.fileAt? source = some bytes) (renamed : fs.rename? source target = some gs) :
    Accounted start (target :: placed) (source :: vacated) gs := by
  obtain ⟨origin, goal, located, reached, same, entries⟩ := FileSystem.rename?_spec found renamed
  rw [accounted.directories.locate?] at located reached
  refine ⟨accounted.directories.trans same, fun q => ?_⟩
  by_cases arrived : q = goal
  · exact .inr (.inl ⟨target, List.mem_cons_self, arrived ▸ reached⟩)
  by_cases left : q = origin
  · refine .inr (.inr ⟨⟨source, List.mem_cons_self, left ▸ located⟩, ?_⟩)
    rw [entries, if_neg arrived, if_pos left]
  · have elsewhere : start.locate? source ≠ some q := fun there =>
      left (Option.some.inj (there.symm.trans located))
    rw [Explained, entries, if_neg arrived, if_neg left]
    exact ((accounted.places q).elsewhere elsewhere).mono (List.subset_cons_self _ _)
      (List.subset_cons_self _ _)

theorem remove (accounted : Accounted start (path :: placed) vacated fs) :
    Accounted start placed (path :: vacated) ((fs.removeFile? path).getD fs) := by
  have kept (q : Location) (elsewhere : start.locate? path ≠ some q) :
      Explained start placed (path :: vacated) fs q :=
    ((accounted.places q).elsewhere elsewhere).mono (List.Subset.refl _)
      (List.subset_cons_self _ _)
  cases removed : fs.removeFile? path with
  | none =>
    refine ⟨accounted.directories, fun q => ?_⟩
    by_cases here : start.locate? path = some q
    · by_cases directory : fs.entry? q = some .directory
      · exact .inl (directory.trans ((accounted.directories q).1 directory).symm)
      · have located := (accounted.directories.locate? path).trans here
        exact .inr (.inr ⟨⟨path, List.mem_cons_self, here⟩,
          FileSystem.removeFile?_eq_none removed located directory⟩)
    · exact kept q here
  | some gs =>
    obtain ⟨place, located, clear, entries⟩ := FileSystem.removeFile?_spec removed
    rw [accounted.directories.locate?] at located
    refine ⟨accounted.directories.trans fun q => ?_, fun q => ?_⟩
    · rw [Option.getD_some, entries]
      split
      next here =>
        subst here
        simp [clear]
      next => rfl
    · by_cases here : q = place
      · exact .inr (.inr ⟨⟨path, List.mem_cons_self, here ▸ located⟩, by simp [entries, here]⟩)
      · rw [Explained, Option.getD_some, entries, if_neg here]
        exact kept q fun there => here (Option.some.inj (there.symm.trans located))

theorem removeAll (accounted : Accounted start placed vacated fs) :
    Accounted start [] (placed ++ vacated) (removeAll placed fs) := by
  induction placed generalizing fs vacated with
  | nil => exact accounted
  | cons path rest ih =>
    refine (ih accounted.remove).mono (List.Subset.refl _) fun p member => ?_
    simpa [or_left_comm, or_assoc] using member

end Accounted

/-- A refused write takes back the temporary files. -/
theorem writeTemporaries_error {files : List (Path × Bytes)} {done : List Path}
    {fault : BundleFault} (accounted : Accounted start done [] fs)
    (failed : writeTemporaries done files fs = .error fault gs) :
    (∃ text, fault = .cannotWrite text) ∧
      Accounted start [] (done ++ (files.map (·.1)).map temporary) gs := by
  induction files generalizing fs done with
  | nil => cases failed
  | cons first rest ih =>
    obtain ⟨path, bytes⟩ := first
    rw [writeTemporaries_cons] at failed
    split at failed
    next hs put =>
      obtain ⟨refused, left⟩ := ih ((accounted.write put).mono (by simp) (List.Subset.refl _)) failed
      exact ⟨refused, by simpa using left⟩
    next =>
      cases failed
      have removed := (accounted.mono (List.subset_append_left done [temporary path])
        (List.Subset.refl _)).removeAll
      exact ⟨⟨_, rfl⟩, removed.mono (List.Subset.refl _) (by simp)⟩

/-- A refused renaming takes back the temporary files that are left and those that have their
place. The path that it was refused for is not one of these. -/
theorem renameTemporaries_error {files : List (Path × Bytes)} {done : List Path}
    {fault : BundleFault} (separate : Separate fs (files.map (·.1)))
    (hold : ∀ f ∈ files, fs.fileAt? (temporary f.1) = some f.2)
    (accounted : Accounted start (done ++ (files.map (·.1)).map temporary) vacated fs)
    (failed : renameTemporaries done (files.map (·.1)) fs = .error fault gs) :
    (∃ text, fault = .cannotWrite text) ∧
      ∃ moved path rest, files.map (·.1) = moved ++ path :: rest ∧
        fs.locate? (temporary path) ≠ none ∧ fs.target? path = none ∧
        Accounted start [] (done ++ moved ++ (files.map (·.1)).map temporary ++ vacated) gs := by
  induction files generalizing fs done vacated with
  | nil => cases failed
  | cons first rest ih =>
    obtain ⟨path, bytes⟩ := first
    obtain ⟨found, hold⟩ := List.forall_mem_cons.1 hold
    rw [List.map_cons, renameTemporaries_cons] at failed
    split at failed
    next hs moved =>
      obtain ⟨-, -, -, -, same, -⟩ := FileSystem.rename?_spec found moved
      have first : Accounted start (temporary path :: (done ++ (rest.map (·.1)).map temporary))
          vacated fs := accounted.mono (fun p => by simp [or_left_comm]) (List.Subset.refl _)
      have second : Accounted start ((done ++ [path]) ++ (rest.map (·.1)).map temporary)
          (temporary path :: vacated) hs :=
        (first.rename found moved).mono (fun p => by simp [or_left_comm]) (List.Subset.refl _)
      obtain ⟨refused, earlier, later, after, split, located, obstacle, left⟩ :=
        ih (separate.tail.congr same) (still_hold separate found hold moved) second failed
      rw [same.locate?] at located
      rw [same.target?] at obstacle
      refine ⟨refused, path :: earlier, later, after, by simp [split], located, obstacle, ?_⟩
      exact left.mono (List.Subset.refl _) fun p => by simp [or_left_comm]
    next refused =>
      cases failed
      obtain ⟨place, located, -⟩ := FileSystem.fileAt?_eq_some.1 found
      refine ⟨⟨_, rfl⟩, [], path, rest.map (·.1), rfl, by simp [located],
        FileSystem.rename?_eq_none found refused, ?_⟩
      simpa using accounted.removeAll

/-- Files that could not all be written: every place is as before or empty. A file's own place is
only touched before a path that no file can be renamed to. -/
theorem writeFiles_error {files : List (Path × Bytes)} {fault : BundleFault}
    (separate : Separate fs (files.map (·.1))) (failed : writeFiles files fs = .error fault gs) :
    (∃ text, fault = .cannotWrite text) ∧
      ∃ moved rest, files.map (·.1) = moved ++ rest ∧
        (moved = [] ∨ ∃ path ∈ rest, fs.locate? (temporary path) ≠ none ∧ fs.target? path = none) ∧
        Accounted fs [] (moved ++ (files.map (·.1)).map temporary) gs := by
  rw [writeFiles, state_bind] at failed
  split at failed
  next hs first =>
    obtain ⟨same, hold, others⟩ := writeTemporaries_ok separate first
    have accounted : Accounted fs ([] ++ (files.map (·.1)).map temporary) [] hs := by
      refine ⟨same, fun q => ?_⟩
      by_cases own : ∃ f ∈ files, fs.locate? (temporary f.1) = some q
      · obtain ⟨f, member, located⟩ := own
        exact .inr (.inl ⟨_, List.mem_map_of_mem (List.mem_map_of_mem member), located⟩)
      · exact .inl (others q fun f member located => own ⟨f, member, located⟩)
    obtain ⟨refused, moved, path, rest, split, located, obstacle, left⟩ :=
      renameTemporaries_error (separate.congr same) hold accounted failed
    rw [same.locate?] at located
    rw [same.target?] at obstacle
    exact ⟨refused, moved, path :: rest, split,
      .inr ⟨path, List.mem_cons_self, located, obstacle⟩, by simpa using left⟩
  next fault' hs first =>
    cases failed
    obtain ⟨refused, left⟩ := writeTemporaries_error (.refl fs) first
    exact ⟨refused, [], _, rfl, .inl rfl, left⟩

end TensorGraph.Bundle
