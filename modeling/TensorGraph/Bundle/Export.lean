import TensorGraph.Bundle.Contents

/-!
Exporting a bundle: three files, each written under a temporary name and then renamed into
place. A refused step removes what the call had written.
-/

namespace TensorGraph

/-- How an export ends without a bundle. -/
inductive ExportFailure where
  | error (e : Error)
  /-- Alignment 0 has no multiple to round up to. The division by zero ends the program. -/
  | divisionByZero
  deriving DecidableEq, Repr

abbrev Export := EStateM ExportFailure FileSystem

instance : MonadLift (Except Error) Export where
  monadLift x fs :=
    match x with
    | .ok a => .ok a fs
    | .error e => .error (.error e) fs

/-- Where a bundle went and how large its regions are. -/
structure Bundle.Written where
  header : Path
  weights : Path
  plan : Path
  constantSize : Nat
  mutableSize : Nat
  activationsSize : Nat
  deriving DecidableEq, Repr

namespace Bundle

/-- The path in `directory` of the file `network` with an extension. -/
def filePath (directory : Path) (network extension : String) : Path :=
  directory.join ⟨[network ++ extension]⟩

def temporary (path : Path) : Path := path.extend ".tmp"

def removeAll (paths : List Path) : FileSystem → FileSystem :=
  paths.foldl fun fs path => (fs.removeFile? path).getD fs

/-- Writes files under their temporary names; those of `done` have been written before. -/
def writeTemporaries (done : List Path) :
    List (Path × Bytes) → EStateM BundleFault FileSystem Unit
  | [] => return
  | (path, bytes) :: rest => do
    let done := done ++ [temporary path]
    match (← get).writeFile? (temporary path) bytes with
    | some fs =>
      set fs
      writeTemporaries done rest
    | none =>
      modify (removeAll done)
      throw (.cannotWrite (temporary path).render)

/-- Renames temporary files into place; those of `done` have been renamed before. -/
def renameTemporaries (done : List Path) : List Path → EStateM BundleFault FileSystem Unit
  | [] => return
  | path :: rest => do
    match (← get).rename? (temporary path) path with
    | some fs =>
      set fs
      renameTemporaries (done ++ [path]) rest
    | none =>
      modify (removeAll (done ++ (path :: rest).map temporary))
      throw (.cannotWrite path.render)

/-- Writes all files or leaves none of them. -/
def writeFiles (files : List (Path × Bytes)) : EStateM BundleFault FileSystem Unit := do
  writeTemporaries [] files
  renameTemporaries [] (files.map (·.1))

def checkNetworkName (network : String) : Except Error Unit :=
  if isNetworkName network then .ok () else .error (.bundle network .networkName)

/-- Names the network in a fault of writing its files. -/
def onNetwork {α : Type} (network : String) (x : EStateM BundleFault FileSystem α) : Export α :=
  x.adaptExcept fun fault => .error (.bundle network fault)

/-- Makes a path a directory. Directories that were created on a way that ends stay. -/
def createDirectory (path : Path) : EStateM BundleFault FileSystem Unit := do
  modify (·.createDirectories path)
  if !(← get).isDirectory path then throw (.cannotCreate path.render)

def write (σ : Store) (plan : Plan) (directory : Path) (network : String) (alignment : Nat) :
    Export Bundle.Written := do
  checkNetworkName network
  if alignment = 0 then throw .divisionByZero
  let b ← layOut plan network alignment
  let file := filePath directory network
  onNetwork network do
    createDirectory directory
    writeFiles [
      (file ".h", b.header.toUTF8.toList),
      (file ".weights", b.weights σ),
      (file ".plan", b.listing.toUTF8.toList)]
  return {
    header := file ".h"
    weights := file ".weights"
    plan := file ".plan"
    constantSize := b.constants.size
    mutableSize := b.placeholders.size
    activationsSize := b.activations.size }

end Bundle
end TensorGraph
