import TensorGraph.Engine.Basic
import TensorGraph.Proofs.Bundle.Reading
import TensorGraph.Proofs.Bundle.Withdrawing
import TensorGraph.Proofs.Directories

/-!
Whole exports, and what each leaves behind. One that succeeds has put its three files in place and
nothing else; one that fails leaves each of its places as it was or empty, so a bundle that was
complete before stays complete. Only directories on the way to the output directory may be new.
-/

namespace TensorGraph

open FileSystem (Created Extends)

variable {fs gs : FileSystem}

namespace Bundle

variable {σ : Store} {plan : Plan} {directory : Path} {network : String} {alignment : Nat}

theorem render_longer (base : List String) (name ending : String) :
    Path.render ⟨base ++ [name ++ ending]⟩ = Path.render ⟨base ++ [name]⟩ ++ ending := by
  unfold Path.render
  induction base with
  | nil => simp
  | cons first rest ih => simp [String.intercalate_cons_of_ne_nil, ih, String.append_assoc]

theorem locate?_of_longer {base : List String} {name ending : String}
    (located : fs.locate? ⟨base ++ [name ++ ending]⟩ ≠ none) :
    fs.locate? ⟨base ++ [name]⟩ ≠ none := by
  unfold FileSystem.locate? at located ⊢
  split at located
  next usable =>
    have shorter : Path.isUsable ⟨base ++ [name]⟩ = true := by
      simp only [Path.isUsable, render_longer, String.utf8ByteSize_append, String.toList_append,
        Bool.and_eq_true, decide_eq_true_eq, List.contains_append, Bool.not_eq_true',
        Bool.or_eq_false_iff] at usable ⊢
      exact ⟨by omega, usable.2.1⟩
    rw [if_pos shorter, List.foldlM_append]
    rw [List.foldlM_append] at located
    cases above : base.foldlM fs.step? [] with
    | none => simp [above] at located
    | some parent =>
      simp only [above, Option.bind_eq_bind, Option.bind_some, List.foldlM_cons, List.foldlM_nil,
        bind_pure, FileSystem.step?, String.utf8ByteSize_append] at located ⊢
      split at located
      next allowed => rw [if_pos ⟨allowed.1, by omega⟩]; simp
      next => exact (located rfl).elim
  next => exact (located rfl).elim

/-- What stands in the way of a file whose temporary file could be written is a directory. -/
theorem isDirectory_of_target?_eq_none {path : Path} (member : path ∈ paths directory network)
    (located : fs.locate? (temporary path) ≠ none) (refused : fs.target? path = none) :
    fs.isDirectory path = true := by
  obtain ⟨extension, -, rfl⟩ := List.mem_map.1 member
  rw [filePath_eq] at *
  rw [temporary_eq] at located
  obtain ⟨place, led⟩ := Option.ne_none_iff_exists'.1 (locate?_of_longer located)
  have obstacle : fs.entry? place = some .directory := by
    simpa [FileSystem.target?, led, Option.filter_eq_none_iff] using refused
  simp [FileSystem.isDirectory, FileSystem.lookup?, led, obstacle]

/-- The six paths of an export: its files and their temporary names. -/
def ownPaths (directory : Path) (network : String) : List Path :=
  paths directory network ++ (paths directory network).map temporary

/-- What a failed export leaves: each place is as it was, holds a directory created on the way to
the output directory, or has lost a file and is one that `emptied` leads to. -/
def Withdrawn (fs gs : FileSystem) (directory : Path) (emptied : List Path) : Prop :=
  ∀ q, gs.entry? q = fs.entry? q ∨ Created fs gs directory q ∨
    (∃ bytes, fs.entry? q = some (.file bytes)) ∧ gs.entry? q = none ∧
      ∃ path ∈ emptied, gs.locate? path = some q

section Withdrawn

variable {emptied emptied' : List Path}

theorem Withdrawn.mono (withdrawn : Withdrawn fs gs directory emptied)
    (more : emptied ⊆ emptied') : Withdrawn fs gs directory emptied' := by
  intro q
  rcases withdrawn q with same | created | ⟨file, empty, path, member, located⟩
  · exact .inl same
  · exact .inr (.inl created)
  · exact .inr (.inr ⟨file, empty, path, more member, located⟩)

theorem Withdrawn.locate? (withdrawn : Withdrawn fs gs directory emptied) {path : Path}
    {place : Location} (located : fs.locate? path = some place) :
    gs.locate? path = some place := by
  refine FileSystem.locate?_mono (fun q here => ?_) located
  rcases withdrawn q with same | created | ⟨⟨bytes, file⟩, -⟩
  · rw [same, here]
  · rw [created.absent] at here
    cases here
  · rw [file] at here
    cases here

theorem Withdrawn.isDirectory (withdrawn : Withdrawn fs gs directory emptied) {path : Path}
    {bytes : Bytes} (found : fs.fileAt? path = some bytes) : gs.isDirectory path = false := by
  obtain ⟨place, located, file⟩ := FileSystem.fileAt?_eq_some.1 found
  have other : gs.entry? place ≠ some .directory := by
    rcases withdrawn place with same | created | ⟨-, empty, -⟩
    · simp [same, file]
    · exact absurd created.absent (by simp [file])
    · simp [empty]
  simp [FileSystem.isDirectory, FileSystem.lookup?, withdrawn.locate? located, other]

theorem Accounted.withdrawn {ready : FileSystem} (accounted : Accounted ready [] emptied gs)
    (grown : Extends fs ready directory) : Withdrawn fs gs directory emptied := by
  intro q
  rcases accounted.places q with same | ⟨p, member, -⟩ | ⟨⟨path, member, located⟩, empty⟩
  · rw [same]
    rcases grown q with kept | created
    · exact .inl kept
    · exact .inr (.inl ⟨created.absent, same.trans created.made, created.passed⟩)
  · cases member
  · cases before : fs.entry? q with
    | none => exact .inl empty
    | some e =>
      cases e with
      | file bytes =>
        exact .inr (.inr ⟨⟨bytes, rfl⟩, empty, path, member,
          by rw [accounted.directories.locate?, located]⟩)
      | directory =>
        rw [(accounted.directories q).2 (grown.entry? before)] at empty
        cases empty

theorem foldl_follow_base (directory : Path) :
    (base directory).foldl Location.follow [] = directory.names.foldl Location.follow [] := by
  unfold base
  split
  next slash =>
    obtain ⟨names, spelled⟩ := List.getLast?_eq_some_iff.1 slash
    rw [spelled, List.dropLast_concat, List.foldl_append]
    rfl
  next => rfl

theorem locate?_own (valid : isNetworkName network = true) {path : Path}
    (member : path ∈ ownPaths directory network) {q : Location}
    (located : fs.locate? path = some q) :
    ∃ name, q = directory.names.foldl Location.follow [] ++ [name] := by
  obtain ⟨ending, rfl⟩ : ∃ ending, path = ⟨base directory ++ [network ++ ending]⟩ := by
    rcases List.mem_append.1 member with final | temporary
    · obtain ⟨extension, -, rfl⟩ := List.mem_map.1 final
      exact ⟨extension, filePath_eq ..⟩
    · obtain ⟨_, final, rfl⟩ := List.mem_map.1 temporary
      obtain ⟨extension, -, rfl⟩ := List.mem_map.1 final
      exact ⟨extension ++ ".tmp", by rw [filePath_eq, temporary_eq, String.append_assoc]⟩
  obtain ⟨parent, above, rfl⟩ := FileSystem.locate?_concat (proper_of_isNetworkName valid _) located
  exact ⟨_, by rw [FileSystem.foldlM_step? above, foldl_follow_base]⟩

/-- Where the path of the output directory never goes up, the directories on it lie above the six
places, so that each of these is as it was or empty. -/
theorem Withdrawn.own (withdrawn : Withdrawn fs gs directory emptied)
    (valid : isNetworkName network = true) (forward : ".." ∉ directory.names) {path : Path}
    (member : path ∈ ownPaths directory network) {q : Location}
    (located : gs.locate? path = some q) : gs.entry? q = fs.entry? q ∨ gs.entry? q = none := by
  rcases withdrawn q with same | created | ⟨-, empty, -⟩
  · exact .inl same
  · obtain ⟨name, rfl⟩ := locate?_own valid member located
    have shallow := created.passed.length_le forward
    rw [List.length_append, List.length_singleton] at shallow
    omega
  · exact .inr empty

end Withdrawn

/-- What a failed export has taken back: its temporary files, and those of its files that it had
put in place before one whose path is a directory. -/
def TakenBack (directory : Path) (network : String) (fs gs : FileSystem) : Prop :=
  ∃ moved rest, paths directory network = moved ++ rest ∧
    (moved = [] ∨ ∃ path ∈ rest, gs.isDirectory path = true) ∧
    Withdrawn fs gs directory (moved ++ (paths directory network).map temporary)

theorem TakenBack.refl (directory : Path) (network : String) (fs : FileSystem) :
    TakenBack directory network fs fs := ⟨[], _, rfl, .inl rfl, fun _ => .inl rfl⟩

theorem TakenBack.withdrawn (taken : TakenBack directory network fs gs) :
    Withdrawn fs gs directory (ownPaths directory network) := by
  obtain ⟨moved, rest, split, -, withdrawn⟩ := taken
  refine withdrawn.mono (List.append_subset.2 ⟨fun path member => ?_, ?_⟩)
  · exact List.mem_append_left _ (split ▸ List.mem_append_left _ member)
  · exact List.subset_append_right _ _

/-- A file survives unless it stood under a temporary name, or under the name of one of the
bundle's files before one whose path is a directory. -/
theorem TakenBack.kept (taken : TakenBack directory network fs gs) {q : Location} {bytes : Bytes}
    (file : fs.entry? q = some (.file bytes))
    (notTemporary : ∀ path ∈ paths directory network, gs.locate? (temporary path) ≠ some q)
    (notMoved : ∀ path later, [path, later].Sublist (paths directory network) →
      gs.locate? path = some q → gs.isDirectory later = false) :
    gs.entry? q = some (.file bytes) := by
  obtain ⟨moved, rest, split, obstacle, withdrawn⟩ := taken
  rcases withdrawn q with same | created | ⟨-, -, path, member, located⟩
  · rw [same, file]
  · rw [created.absent] at file
    cases file
  · rcases List.mem_append.1 member with early | member
    · rcases obstacle with rfl | ⟨later, late, squats⟩
      · cases early
      · have order : [path, later].Sublist (paths directory network) :=
          split ▸ (List.singleton_sublist.2 early).append (List.singleton_sublist.2 late)
        rw [notMoved path later order located] at squats
        cases squats
    · obtain ⟨final, own, rfl⟩ := List.mem_map.1 member
      exact (notTemporary final own located).elim

theorem TakenBack.complete (taken : TakenBack directory network fs gs)
    (valid : isNetworkName network = true)
    (complete : ∀ path ∈ paths directory network, ∃ bytes, fs.fileAt? path = some bytes) :
    ∀ path ∈ paths directory network, gs.fileAt? path = fs.fileAt? path := by
  intro path member
  obtain ⟨_, _, -, -, withdrawn⟩ := id taken
  obtain ⟨bytes, found⟩ := complete path member
  obtain ⟨place, located, file⟩ := FileSystem.fileAt?_eq_some.1 found
  have there := withdrawn.locate? located
  rw [found]
  refine FileSystem.fileAt?_eq_some.2 ⟨place, there, taken.kept file ?_ ?_⟩
  · exact fun other own here =>
      (separate_files valid directory gs).across other own path member place here there
  · intro first later order _
    obtain ⟨bytes', found'⟩ := complete later (order.subset (by simp))
    exact withdrawn.isDirectory found'

/-- An export that is refused while it writes. -/
theorem createAndWrite_error {b : Bundle} {fault : BundleFault}
    (valid : isNetworkName network = true)
    (failed : (do createDirectory directory; writeFiles (b.files σ directory network)) fs =
      .error fault gs) :
    (∃ text, fault = .cannotCreate text ∨ fault = .cannotWrite text) ∧
      TakenBack directory network fs gs := by
  have grown := FileSystem.createDirectories_extends fs directory
  rw [state_bind, createDirectory_eq] at failed
  by_cases ready : (fs.createDirectories directory).isDirectory directory = true
  · rw [if_pos ready] at failed
    obtain ⟨⟨text, refusal⟩, moved, rest, split, obstacle, left⟩ :=
      writeFiles_error (separate_files valid directory _) failed
    rw [map_files] at split left
    refine ⟨⟨text, .inr refusal⟩, moved, rest, split, ?_, left.withdrawn grown⟩
    rcases obstacle with none | ⟨path, member, located, refused⟩
    · exact .inl none
    · have own : path ∈ paths directory network := split ▸ List.mem_append_right _ member
      refine .inr ⟨path, member, ?_⟩
      rw [left.directories.isDirectory]
      exact isDirectory_of_target?_eq_none own located refused
  · rw [if_neg ready] at failed
    cases failed
    exact ⟨⟨_, .inl rfl⟩, [], _, rfl, .inl rfl,
      ((Accounted.refl _).withdrawn grown).mono (List.nil_subset _)⟩

/-- What a successful export leaves: its files with what was generated for them, and nothing under
their temporary names. Elsewhere only directories on the way to the output directory are new. -/
structure Stored (b : Bundle) (σ : Store) (directory : Path) (network : String)
    (fs gs : FileSystem) : Prop where
  contents : ∀ f ∈ b.files σ directory network, gs.fileAt? f.1 = some f.2
  temporaries : ∀ path ∈ paths directory network, gs.fileAt? (temporary path) = none
  others : ∀ q, (∀ path ∈ ownPaths directory network, gs.locate? path ≠ some q) →
    gs.entry? q = fs.entry? q ∨ Created fs gs directory q

end Bundle

/-- Whether the file system refused a step of an export. -/
def ExportFailure.isRefusal : ExportFailure → Bool
  | .error (.bundle _ (.cannotCreate _)) => true
  | .error (.bundle _ (.cannotWrite _)) => true
  | _ => false

/-- An export that fails has taken back what it did. Without a refusal it had done nothing. -/
theorem Bundle.write_error {σ : Store} {plan : Plan} {directory : Path} {network : String}
    {alignment : Nat} {failure : ExportFailure}
    (failed : Bundle.write σ plan directory network alignment fs = .error failure gs) :
    TakenBack directory network fs gs ∧ (failure.isRefusal = false → gs = fs) := by
  rw [write_eq] at failed
  split at failed
  next =>
    cases failed
    exact ⟨.refl _ _ _, fun _ => rfl⟩
  next valid =>
    split at failed
    next =>
      cases failed
      exact ⟨.refl _ _ _, fun _ => rfl⟩
    next =>
      split at failed
      next =>
        cases failed
        exact ⟨.refl _ _ _, fun _ => rfl⟩
      next =>
        split at failed
        next => cases failed
        next fault hs work =>
          cases failed
          obtain ⟨⟨text, refusal⟩, taken⟩ := createAndWrite_error (eq_true_of_ne_false valid) work
          refine ⟨taken, fun before => ?_⟩
          rcases refusal with rfl | rfl <;> cases before

/-- What keeps the CPU backend from exporting a function, whatever the files. -/
def Cpu.Rejects (f : Function) (mode : Mode) (network : String) : Prop :=
  Bundle.isNetworkName network = false ∨ mode.isTraining = true ∨
    ∃ n ∈ f.nodes, Cpu.supports n.kind n.ty.kind = false

theorem Cpu.saveBundle_eq (config : Cpu.Config) (σ : Store) (f : Function) (mode : Mode)
    (directory : Path) (network : String) (fs : FileSystem) :
    Cpu.saveBundle config σ f mode directory network fs =
      if Bundle.isNetworkName network = false then
        .error (.error (.bundle network .networkName)) fs
      else
        match Cpu.lower f mode with
        | .ok plan => Bundle.write σ plan directory network config.alignment fs
        | .error e => .error (.error e) fs := by
  unfold Cpu.saveBundle
  rw [state_bind, Bundle.export_check]
  cases valid : Bundle.isNetworkName network with
  | false =>
    rw [Bundle.checkNetworkName, valid]
    rfl
  | true =>
    rw [Bundle.checkNetworkName_eq_ok (u := ()).2 valid]
    simp only [Bool.true_eq_false, if_false]
    rw [state_bind, Bundle.export_check]
    cases Cpu.lower f mode <;> rfl

theorem Cpu.Rejects.lower {f : Function} {mode : Mode} {network : String}
    (rejects : Cpu.Rejects f mode network) (valid : ¬ Bundle.isNetworkName network = false)
    (plan : Plan) : Cpu.lower f mode ≠ .ok plan := by
  intro lowered
  have compiled : Cpu.compile {} f mode = .ok (.tape plan 4096) :=
    bind_eq_ok.2 ⟨plan, lowered, rfl⟩
  obtain rfl := Cpu.infer_of_compile compiled
  rcases rejects with invalid | training | ⟨n, member, unsupported⟩
  · exact valid invalid
  · cases training
  · rw [Cpu.supports, (Cpu.lower_eq_ok lowered).2 n member] at unsupported
    cases unsupported

theorem Cpu.Rejects.saveBundle {f : Function} {mode : Mode} {network : String}
    (rejects : Cpu.Rejects f mode network) (config : Cpu.Config) (σ : Store) (directory : Path)
    (fs : FileSystem) :
    ∃ failure, Cpu.saveBundle config σ f mode directory network fs = .error failure fs := by
  rw [Cpu.saveBundle_eq]
  split
  next => exact ⟨_, rfl⟩
  next valid =>
    split
    next plan lowered => exact (rejects.lower valid plan lowered).elim
    next e refused => exact ⟨_, rfl⟩

def Cpu.Stored (config : Cpu.Config) (σ : Store) (f : Function) (mode : Mode) (directory : Path)
    (network : String) (fs gs : FileSystem) : Prop :=
  ∃ plan, Cpu.lower f mode = .ok plan ∧
    Bundle.Stored (.ofPlan plan network config.alignment) σ directory network fs gs

theorem Cpu.saveBundle_error {config : Cpu.Config} {σ : Store} {f : Function} {mode : Mode}
    {directory : Path} {network : String} {failure : ExportFailure}
    (failed : Cpu.saveBundle config σ f mode directory network fs = .error failure gs) :
    Bundle.TakenBack directory network fs gs ∧ (failure.isRefusal = false → gs = fs) := by
  rw [Cpu.saveBundle_eq] at failed
  split at failed
  next =>
    cases failed
    exact ⟨.refl _ _ _, fun _ => rfl⟩
  next =>
    split at failed
    next => exact Bundle.write_error failed
    next =>
      cases failed
      exact ⟨.refl _ _ _, fun _ => rfl⟩

theorem Cpu.save_eq (config : Cpu.Config) (σ : Store) (f : Function) (mode : Mode)
    (directory : Path) (network : String) (fs : FileSystem) :
    Backend.save (Cpu.backend config) σ f mode directory network fs =
      match Cpu.saveBundle config σ f mode directory network fs with
      | .ok _ gs => .ok () gs
      | .error failure gs => .error failure gs := by
  change EStateM.map _ (Cpu.saveBundle config σ f mode directory network) fs = _
  unfold EStateM.map
  cases Cpu.saveBundle config σ f mode directory network fs <;> rfl

theorem Engine.save_eq (e : Engine) (σ : Store) (mode : Mode) (name : String) (directory : Path)
    (network : String) (fs : FileSystem) :
    e.save σ mode name directory network fs =
      if e.backend.supportsBundles = false then
        .error (.error (.bundleUnsupported e.backend.kind.name)) fs
      else
        match e.module.function name with
        | .error err => .error (.error err) fs
        | .ok f =>
          match f.optimize mode σ with
          | .error err _ => .error (.error (err.whileCompiling name)) fs
          | .ok (g, _) τ => e.backend.save τ g mode directory network fs := by
  unfold Engine.save
  cases e.backend.supportsBundles with
  | false => rfl
  | true =>
    simp only [Bool.not_true, Bool.false_eq_true, Bool.true_eq_false, if_false]
    change ((liftM (e.module.function name) : Export Function) >>= _) fs = _
    rw [state_bind, Bundle.export_check]
    cases e.module.function name with
    | error err => rfl
    | ok f =>
      dsimp only
      cases f.optimize mode σ <;> rfl

/-- What keeps an engine from exporting a function, whatever the files. -/
inductive Engine.Rejects (e : Engine) (σ : Store) (mode : Mode) (name network : String) : Prop where
  | unsupported (none : e.backend.supportsBundles = false)
  | unknown {err : Error} (missing : e.module.function name = .error err)
  | rejected {config : Cpu.Config} {f g : Function} {counts : PassCounts} {τ : Store}
      (cpu : e.backend = Cpu.backend config) (found : e.module.function name = .ok f)
      (optimized : f.optimize mode σ = .ok (g, counts) τ) (rejects : Cpu.Rejects g mode network)

theorem Engine.Rejects.save {e : Engine} {σ : Store} {mode : Mode} {name network : String}
    (rejects : e.Rejects σ mode name network) (directory : Path) (fs : FileSystem) :
    ∃ failure, e.save σ mode name directory network fs = .error failure fs := by
  rw [Engine.save_eq]
  split
  next => exact ⟨_, rfl⟩
  next bundles =>
    cases rejects with
    | unsupported none => exact (bundles none).elim
    | unknown missing => exact ⟨_, by rw [missing]⟩
    | @rejected config f g counts τ cpu found optimized rejects =>
      obtain ⟨failure, failed⟩ := rejects.saveBundle config τ directory fs
      refine ⟨failure, ?_⟩
      simp only [found, optimized, cpu]
      rw [Cpu.save_eq, failed]

def Engine.Stored (e : Engine) (config : Cpu.Config) (σ : Store) (mode : Mode) (name : String)
    (directory : Path) (network : String) (fs gs : FileSystem) : Prop :=
  ∃ f g counts τ, e.module.function name = .ok f ∧ f.optimize mode σ = .ok (g, counts) τ ∧
    Cpu.Stored config τ g mode directory network fs gs

/-- A failed export keeps every file but those under its temporary names and, where one of its
paths is a directory, those that the bundle's files before it stood for. So a bundle that was
complete before is complete after, and its weights read the same. -/
theorem failed_export_keeps_files {config : Cpu.Config} {σ : Store} {f : Function} {mode : Mode}
    {directory : Path} {network : String} {failure : ExportFailure}
    (failed : Cpu.saveBundle config σ f mode directory network fs = .error failure gs) :
    let paths := Bundle.paths directory network
    (∀ q bytes, fs.entry? q = some (.file bytes) →
      (∀ path ∈ paths, gs.locate? (Bundle.temporary path) ≠ some q) →
      (∀ path later, [path, later].Sublist paths → gs.locate? path = some q →
        gs.isDirectory later = false) →
      gs.entry? q = some (.file bytes)) ∧
    ((∀ path ∈ paths, ∃ bytes, fs.fileAt? path = some bytes) →
      ∀ path ∈ paths, gs.fileAt? path = fs.fileAt? path ∧
        Weights.read gs path = Weights.read fs path) := by
  intro paths
  obtain ⟨taken, -⟩ := Cpu.saveBundle_error failed
  refine ⟨fun q bytes file => taken.kept file, fun complete path member => ?_⟩
  have same : gs.fileAt? path = fs.fileAt? path := by
    cases valid : Bundle.isNetworkName network with
    | true => exact taken.complete valid complete path member
    | false =>
      rw [Cpu.saveBundle_eq, if_pos valid] at failed
      cases failed
      rfl
  exact ⟨same, by rw [Weights.read, Weights.read, same]⟩

namespace Workspace.Shift

def barred : FileSystem := ⟨⟨[(["out"], .directory), (["out", "net.h"], .file [104]),
  (["out", "net.weights"], .file [119]), (["out", "net.plan"], .file [112]),
  (["out", "net.plan.tmp"], .directory)]⟩⟩

/-- An output directory with a header and a leftover of an export, in which a directory stands
where the weights belong. -/
def squatted : FileSystem := ⟨⟨[(["out"], .directory), (["out", "net.h"], .file [104]),
  (["out", "net.plan.tmp"], .file [112]), (["out", "net.weights"], .directory)]⟩⟩

end Workspace.Shift

open Workspace

theorem failed_export_keeps_files_barred :
    ∃ failure gs, Cpu.saveBundle {} Shift.workspace.store Shift.function .infer ⟨["out"]⟩ "net"
        Shift.barred = .error failure gs ∧
      ∀ path ∈ Bundle.paths ⟨["out"]⟩ "net", gs.fileAt? path = Shift.barred.fileAt? path := by
  cases ended : Cpu.saveBundle {} Shift.workspace.store Shift.function .infer ⟨["out"]⟩ "net"
      Shift.barred with
  | ok written gs =>
    have refused : (match Cpu.saveBundle {} Shift.workspace.store Shift.function .infer ⟨["out"]⟩
        "net" Shift.barred with
      | .ok _ _ => false
      | .error _ _ => true) = true := by decide +kernel
    rw [ended] at refused
    cases refused
  | error failure gs =>
    obtain ⟨-, complete⟩ := failed_export_keeps_files ended
    have whole : ∀ path ∈ Bundle.paths ⟨["out"]⟩ "net",
        ∃ bytes, Shift.barred.fileAt? path = some bytes := by
      simp only [← Option.isSome_iff_exists]
      decide +kernel
    exact ⟨failure, gs, rfl, fun path member => (complete whole path member).1⟩

/-- Where a directory stands for the weights, the header that was there before is gone. -/
theorem failed_export_loses_header :
    ∃ failure gs, Cpu.saveBundle {} Shift.workspace.store Shift.function .infer ⟨["out"]⟩ "net"
        Shift.squatted = .error failure gs ∧
      Shift.squatted.fileAt? ⟨["out", "net.h"]⟩ = some [104] ∧
      gs.fileAt? ⟨["out", "net.h"]⟩ = none ∧ gs.fileAt? ⟨["out", "net.plan.tmp"]⟩ = none := by
  have run : (match Cpu.saveBundle {} Shift.workspace.store Shift.function .infer ⟨["out"]⟩ "net"
      Shift.squatted with
    | .ok _ _ => false
    | .error _ gs => gs.fileAt? ⟨["out", "net.h"]⟩ = none ∧
        gs.fileAt? ⟨["out", "net.plan.tmp"]⟩ = none) = true := by decide +kernel
  split at run
  next => cases run
  next failure gs failed =>
    exact ⟨failure, gs, failed, by decide +kernel, of_decide_eq_true run⟩

end TensorGraph
