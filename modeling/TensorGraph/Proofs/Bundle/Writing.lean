import TensorGraph.Bundle.Export
import TensorGraph.Proofs.Bundle.Layout
import TensorGraph.Proofs.FileSystem

/-!
Writing a bundle that succeeds. The files of a bundle and their temporary names are different
places of one directory, so no step undoes what another has done: in the end each file holds what
was generated for it.
-/

namespace TensorGraph.Bundle

variable {fs gs : FileSystem}

/-- Files that may be written together: neither they nor their temporary names share a place. -/
structure Separate (fs : FileSystem) (paths : List Path) : Prop where
  finals : paths.Pairwise fs.Apart
  temporaries : (paths.map temporary).Pairwise fs.Apart
  across : ∀ p ∈ paths, ∀ q ∈ paths, fs.Apart (temporary p) q

theorem Separate.congr {paths : List Path} (separate : Separate fs paths)
    (same : fs.SameDirectories gs) : Separate gs paths :=
  ⟨separate.finals.imp fun apart => apart.congr same,
    separate.temporaries.imp fun apart => apart.congr same,
    fun p left q right => (separate.across p left q right).congr same⟩

theorem Separate.tail {path : Path} {paths : List Path} (separate : Separate fs (path :: paths)) :
    Separate fs paths :=
  ⟨separate.finals.of_cons, separate.temporaries.of_cons, fun p left q right =>
    separate.across p (List.mem_cons_of_mem _ left) q (List.mem_cons_of_mem _ right)⟩

theorem writeTemporaries_cons (done : List Path) (path : Path) (bytes : Bytes)
    (rest : List (Path × Bytes)) (fs : FileSystem) :
    writeTemporaries done ((path, bytes) :: rest) fs =
      match fs.writeFile? (temporary path) bytes with
      | some gs => writeTemporaries (done ++ [temporary path]) rest gs
      | none => .error (.cannotWrite (temporary path).render)
          (removeAll (done ++ [temporary path]) fs) := by
  rw [writeTemporaries, state_bind, state_get]
  dsimp only
  cases fs.writeFile? (temporary path) bytes <;> rfl

theorem renameTemporaries_cons (done : List Path) (path : Path) (rest : List Path)
    (fs : FileSystem) :
    renameTemporaries done (path :: rest) fs =
      match fs.rename? (temporary path) path with
      | some gs => renameTemporaries (done ++ [path]) rest gs
      | none => .error (.cannotWrite path.render)
          (removeAll (done ++ (path :: rest).map temporary) fs) := by
  rw [renameTemporaries, state_bind, state_get]
  dsimp only
  cases fs.rename? (temporary path) path <;> rfl

theorem ne_of_located {path : Path} {place q : Location} (located : fs.locate? path = some place)
    (elsewhere : fs.locate? path ≠ some q) : place ≠ q := by
  rintro rfl
  exact elsewhere located

/-- The files stand under their temporary names, and nothing else has changed. -/
theorem writeTemporaries_ok {files : List (Path × Bytes)} {done : List Path}
    (separate : Separate fs (files.map (·.1)))
    (written : writeTemporaries done files fs = .ok () gs) :
    fs.SameDirectories gs ∧ (∀ f ∈ files, gs.fileAt? (temporary f.1) = some f.2) ∧
      ∀ q, (∀ f ∈ files, fs.locate? (temporary f.1) ≠ some q) → gs.entry? q = fs.entry? q := by
  induction files generalizing fs done with
  | nil =>
    cases written
    exact ⟨.refl _, fun _ member => (nomatch member), fun q _ => rfl⟩
  | cons first rest ih =>
    obtain ⟨path, bytes⟩ := first
    rw [writeTemporaries_cons] at written
    split at written
    next hs put =>
      obtain ⟨place, located, same, entries⟩ := FileSystem.writeFile?_spec put
      obtain ⟨same', hold, others⟩ := ih (separate.tail.congr same) written
      simp only [same.locate?] at others
      have apart : ∀ f ∈ rest, fs.locate? (temporary f.1) ≠ some place := fun f member =>
        (List.pairwise_cons.1 separate.temporaries).1 _
          (List.mem_map_of_mem (List.mem_map_of_mem member)) place located
      refine ⟨same.trans same', fun f member => ?_, fun q outside => ?_⟩
      · rcases List.mem_cons.1 member with rfl | member
        · refine (same.trans same').fileAt? located ?_
          rw [others place apart, entries, if_pos rfl]
        · exact hold f member
      · have away := ne_of_located located (outside (path, bytes) List.mem_cons_self)
        rw [others q fun f member => outside f (List.mem_cons_of_mem _ member), entries,
          if_neg away.symm]
    next => cases written

theorem still_hold {path : Path} {bytes : Bytes} {rest : List (Path × Bytes)}
    (separate : Separate fs (path :: rest.map (·.1)))
    (found : fs.fileAt? (temporary path) = some bytes)
    (hold : ∀ f ∈ rest, fs.fileAt? (temporary f.1) = some f.2)
    (moved : fs.rename? (temporary path) path = some gs) :
    ∀ f ∈ rest, gs.fileAt? (temporary f.1) = some f.2 := by
  intro f member
  obtain ⟨origin, goal, source, target, same, entries⟩ := FileSystem.rename?_spec found moved
  obtain ⟨place, there, file⟩ := FileSystem.fileAt?_eq_some.1 (hold f member)
  have present : f.1 ∈ rest.map (·.1) := List.mem_map_of_mem member
  have left := (List.pairwise_cons.1 separate.temporaries).1 _ (List.mem_map_of_mem present)
    origin source
  have taken : fs.locate? (temporary f.1) ≠ some goal := fun there =>
    separate.across f.1 (List.mem_cons_of_mem _ present) path List.mem_cons_self goal there target
  refine same.fileAt? there ?_
  rw [entries, if_neg (ne_of_located there taken), if_neg (ne_of_located there left), file]

theorem renameTemporaries_ok {files : List (Path × Bytes)} {done : List Path}
    (separate : Separate fs (files.map (·.1)))
    (hold : ∀ f ∈ files, fs.fileAt? (temporary f.1) = some f.2)
    (renamed : renameTemporaries done (files.map (·.1)) fs = .ok () gs) :
    fs.SameDirectories gs ∧ (∀ f ∈ files, gs.fileAt? f.1 = some f.2) ∧
      (∀ f ∈ files, ∀ q, fs.locate? (temporary f.1) = some q → gs.entry? q = none) ∧
      ∀ q, (∀ f ∈ files, fs.locate? (temporary f.1) ≠ some q ∧ fs.locate? f.1 ≠ some q) →
        gs.entry? q = fs.entry? q := by
  induction files generalizing fs done with
  | nil =>
    cases renamed
    exact ⟨.refl _, fun _ member => (nomatch member), fun _ member => (nomatch member),
      fun q _ => rfl⟩
  | cons first rest ih =>
    obtain ⟨path, bytes⟩ := first
    rw [List.map_cons, renameTemporaries_cons] at renamed
    split at renamed
    next hs moved =>
      obtain ⟨found, hold⟩ := List.forall_mem_cons.1 hold
      obtain ⟨origin, goal, source, target, same, entries⟩ := FileSystem.rename?_spec found moved
      -- No other file, under either name, is where this one was or where it went.
      have left : ∀ f ∈ rest, fs.locate? (temporary f.1) ≠ some origin ∧
          fs.locate? f.1 ≠ some origin := fun f member =>
        ⟨(List.pairwise_cons.1 separate.temporaries).1 _
            (List.mem_map_of_mem (List.mem_map_of_mem member)) origin source,
          separate.across path List.mem_cons_self f.1
            (List.mem_cons_of_mem _ (List.mem_map_of_mem member)) origin source⟩
      have taken : ∀ f ∈ rest, fs.locate? (temporary f.1) ≠ some goal ∧
          fs.locate? f.1 ≠ some goal := fun f member =>
        ⟨fun there => separate.across f.1 (List.mem_cons_of_mem _ (List.mem_map_of_mem member)) path
            List.mem_cons_self goal there target,
          (List.pairwise_cons.1 separate.finals).1 _ (List.mem_map_of_mem member) goal target⟩
      have apart : origin ≠ goal := ne_of_located source
        (separate.across path List.mem_cons_self path List.mem_cons_self goal · target)
      obtain ⟨same', arrived, gone, others⟩ :=
        ih (separate.tail.congr same) (still_hold separate found hold moved) renamed
      simp only [same.locate?] at gone others
      refine ⟨same.trans same', List.forall_mem_cons.2 ⟨?_, arrived⟩,
        List.forall_mem_cons.2 ⟨fun q here => ?_, gone⟩, fun q outside => ?_⟩
      · refine (same.trans same').fileAt? target ?_
        rw [others goal taken, entries, if_pos rfl]
      · obtain rfl := Option.some.inj (source.symm.trans here)
        rw [others origin left, entries, if_neg apart, if_pos rfl]
      · obtain ⟨⟨notOrigin, notGoal⟩, outside⟩ := List.forall_mem_cons.1 outside
        rw [others q outside, entries, if_neg (ne_of_located target notGoal).symm,
          if_neg (ne_of_located source notOrigin).symm]
    next => cases renamed

/-- What was to be written is there, the temporary files are gone, and nothing else has
changed. -/
theorem writeFiles_ok {files : List (Path × Bytes)} (separate : Separate fs (files.map (·.1)))
    (written : writeFiles files fs = .ok () gs) :
    fs.SameDirectories gs ∧ (∀ f ∈ files, gs.fileAt? f.1 = some f.2) ∧
      (∀ f ∈ files, ∀ q, fs.locate? (temporary f.1) = some q → gs.entry? q = none) ∧
      ∀ q, (∀ f ∈ files, fs.locate? (temporary f.1) ≠ some q ∧ fs.locate? f.1 ≠ some q) →
        gs.entry? q = fs.entry? q := by
  obtain ⟨_, hs, first, second⟩ := state_bind_eq_ok.1 written
  obtain ⟨same, hold, untouched⟩ := writeTemporaries_ok separate first
  obtain ⟨same', stored, gone, others⟩ := renameTemporaries_ok (separate.congr same) hold second
  simp only [same.locate?] at gone others
  refine ⟨same.trans same', stored, gone, fun q outside => ?_⟩
  rw [others q outside, untouched q fun f member => (outside f member).1]

/-- The directory part of a bundle's paths. -/
def base (directory : Path) : List String :=
  if directory.names.getLast? = some "" then directory.names.dropLast else directory.names

/-- The paths of a bundle's files, in the order in which they are put in place. -/
def paths (directory : Path) (network : String) : List Path :=
  [".h", ".weights", ".plan"].map (filePath directory network)

/-- A bundle's files with what is generated for them. -/
def files (b : Bundle) (σ : Store) (directory : Path) (network : String) : List (Path × Bytes) :=
  [(filePath directory network ".h", b.header.toUTF8.toList),
    (filePath directory network ".weights", b.weights σ),
    (filePath directory network ".plan", b.listing.toUTF8.toList)]

theorem map_files (b : Bundle) (σ : Store) (directory : Path) (network : String) :
    (b.files σ directory network).map (·.1) = paths directory network := rfl

theorem filePath_eq (directory : Path) (network extension : String) :
    filePath directory network extension = ⟨base directory ++ [network ++ extension]⟩ := by
  have relative : Path.isAbsolute ⟨[network ++ extension]⟩ = false := by
    simp [Path.isAbsolute]
  simp only [filePath, Path.join, base, relative, Bool.false_eq_true, if_false]
  split <;> rfl

theorem temporary_eq (base : List String) (name : String) :
    temporary ⟨base ++ [name]⟩ = ⟨base ++ [name ++ ".tmp"]⟩ := by
  simp [temporary, Path.extend]

/-- A network's name starts with a letter or an underscore, so a file's name is no dot. -/
theorem proper_of_isNetworkName {network : String} (valid : isNetworkName network = true)
    (ending : String) : FileSystem.Proper (network ++ ending) := by
  unfold isNetworkName at valid
  split at valid
  next c rest spelled =>
    obtain ⟨letter, -⟩ := Bool.and_eq_true_iff.1 valid
    have notDot : c ≠ '.' := by
      rintro rfl
      exact absurd letter (by decide)
    have other {text : String} (start : text.toList.head? ≠ some c) : network ++ ending ≠ text := by
      rintro rfl
      rw [String.toList_append, spelled] at start
      exact start rfl
    refine ⟨?_, other fun same => notDot (Option.some.inj same).symm⟩
    have empty : network ++ ending ≠ "" := other fun same => nomatch same
    have dot : network ++ ending ≠ "." := other fun same => notDot (Option.some.inj same).symm
    simp [Path.staysPut, empty, dot]
  next => cases valid

theorem separate_files {network : String} (valid : isNetworkName network = true)
    (directory : Path) (fs : FileSystem) :
    Separate fs (paths directory network) := by
  have apart {a b : String} (different : a ≠ b) :
      fs.Apart ⟨base directory ++ [network ++ a]⟩ ⟨base directory ++ [network ++ b]⟩ :=
    FileSystem.apart_of_names (proper_of_isNetworkName valid a) (proper_of_isNetworkName valid b)
      (mt (String.append_right_inj network).1 different)
  simp only [paths, List.map_cons, List.map_nil, filePath_eq]
  refine ⟨?_, ?_, fun p left q right => ?_⟩
  · simp [apart]
  · simp [temporary_eq, String.append_assoc, apart]
  · simp only [List.mem_cons, List.not_mem_nil, or_false] at left right
    rcases left with rfl | rfl | rfl <;> rcases right with rfl | rfl | rfl <;>
      rw [temporary_eq, String.append_assoc] <;> exact apart (by decide)

theorem export_check {α : Type} (x : Except Error α) (fs : FileSystem) :
    (liftM x : Export α) fs =
      match x with
      | .ok a => .ok a fs
      | .error e => .error (.error e) fs := rfl

theorem checkNetworkName_eq_ok {network : String} {u : Unit} :
    checkNetworkName network = .ok u ↔ isNetworkName network = true := by
  unfold checkNetworkName
  split <;> simp_all

theorem createDirectory_eq (directory : Path) (fs : FileSystem) :
    createDirectory directory fs =
      if (fs.createDirectories directory).isDirectory directory then
        .ok () (fs.createDirectories directory)
      else .error (.cannotCreate directory.render) (fs.createDirectories directory) := by
  unfold createDirectory
  rw [state_bind]
  change ((get >>= _ : EStateM BundleFault FileSystem Unit)) (fs.createDirectories directory) = _
  rw [state_bind, state_get]
  dsimp only
  cases (fs.createDirectories directory).isDirectory directory <;> rfl

/-- The name, the alignment and the layout are checked before anything is created. -/
theorem write_eq (σ : Store) (plan : Plan) (directory : Path) (network : String) (alignment : Nat)
    (fs : FileSystem) :
    Bundle.write σ plan directory network alignment fs =
      if isNetworkName network = false then .error (.error (.bundle network .networkName)) fs
      else if alignment = 0 then .error .divisionByZero fs
      else
        match layOut plan network alignment with
        | .error e => .error (.error e) fs
        | .ok b =>
          match (do createDirectory directory; writeFiles (b.files σ directory network)) fs with
          | .ok _ gs => .ok {
              header := filePath directory network ".h"
              weights := filePath directory network ".weights"
              plan := filePath directory network ".plan"
              constantSize := b.constants.size
              mutableSize := b.placeholders.size
              activationsSize := b.activations.size } gs
          | .error fault gs => .error (.error (.bundle network fault)) gs := by
  unfold write
  rw [state_bind, export_check]
  cases valid : isNetworkName network with
  | false =>
    rw [checkNetworkName, valid]
    rfl
  | true =>
    rw [checkNetworkName_eq_ok (u := ()).2 valid]
    simp only [Bool.true_eq_false, if_false]
    by_cases zero : alignment = 0
    · rw [if_pos zero, if_pos zero]
      rfl
    · rw [if_neg zero, if_neg zero, state_bind, export_check]
      cases layOut plan network alignment with
      | error e => rfl
      | ok b =>
        dsimp only
        rw [state_bind, onNetwork, state_adaptExcept]
        dsimp only [files]
        generalize (createDirectory directory >>= fun _ => writeFiles _) fs = result
        cases result <;> rfl

/-- A bundle that was written: its name and alignment were valid, its regions could be laid out,
and its files were written once the directory was there. -/
theorem write_eq_ok {σ : Store} {plan : Plan} {directory : Path} {network : String}
    {alignment : Nat} {written : Bundle.Written}
    (made : Bundle.write σ plan directory network alignment fs = .ok written gs) :
    let b := ofPlan plan network alignment
    isNetworkName network = true ∧ 0 < alignment ∧ layOut plan network alignment = .ok b ∧
      written = {
        header := filePath directory network ".h"
        weights := filePath directory network ".weights"
        plan := filePath directory network ".plan"
        constantSize := b.constants.size
        mutableSize := b.placeholders.size
        activationsSize := b.activations.size } ∧
      writeFiles (b.files σ directory network) (fs.createDirectories directory) = .ok () gs := by
  rw [write_eq] at made
  split at made
  next => cases made
  next valid =>
    split at made
    next => cases made
    next zero =>
      have positive := Nat.pos_of_ne_zero zero
      split at made
      next => cases made
      next b laid =>
        obtain ⟨-, rfl⟩ := (layOut_eq_ok positive).1 laid
        split at made
        next u hs work =>
          cases made
          obtain ⟨_, is, ready, files⟩ := state_bind_eq_ok.1 work
          rw [createDirectory_eq] at ready
          split at ready
          next =>
            cases ready
            exact ⟨eq_true_of_ne_false valid, positive, laid, rfl, files⟩
          next => cases ready
        next => cases made

theorem write_ok {σ : Store} {plan : Plan} {directory : Path} {network : String} {alignment : Nat}
    {written : Bundle.Written}
    (made : Bundle.write σ plan directory network alignment fs = .ok written gs) :
    let b := ofPlan plan network alignment
    0 < alignment ∧ Measurable plan alignment ∧
      written = {
        header := filePath directory network ".h"
        weights := filePath directory network ".weights"
        plan := filePath directory network ".plan"
        constantSize := b.constants.size
        mutableSize := b.placeholders.size
        activationsSize := b.activations.size } ∧
      gs.fileAt? written.header = some b.header.toUTF8.toList ∧
      gs.fileAt? written.weights = some (b.weights σ) ∧
      gs.fileAt? written.plan = some b.listing.toUTF8.toList := by
  intro b
  obtain ⟨valid, positive, laid, rfl, files⟩ := write_eq_ok made
  obtain ⟨-, contents, -⟩ := writeFiles_ok (separate_files valid directory _) files
  obtain ⟨header, weights, listing, -⟩ : _ ∧ _ ∧ _ ∧ _ := by
    simpa only [Bundle.files, List.forall_mem_cons] using contents
  exact ⟨positive, ((layOut_eq_ok positive).1 laid).1, rfl, header, weights, listing⟩

end TensorGraph.Bundle
