import TensorGraph.Path
import TensorGraph.Table

/-!
A file system as far as an export can tell: files and directories at locations, and the
paths that lead to them. The root is always a directory. Writing, renaming and removing a
file are refused (`none`) or succeed. Writing to a directory, renaming a file onto one, and
any path through a file or a missing directory are refused.
-/

namespace TensorGraph

abbrev Bytes := List UInt8

/-- The names of directories from the root down, and of what the last of them holds. -/
abbrev Location := List String

/-- Where a name of a path leads from a directory. -/
def Location.follow (place : Location) (name : String) : Location :=
  if Path.staysPut name then place
  else if name = ".." then place.dropLast
  else place ++ [name]

inductive FileEntry where
  | file (bytes : Bytes)
  | directory
  deriving DecidableEq, Repr

structure FileSystem where
  entries : Table Location FileEntry
  deriving DecidableEq, Repr

namespace FileSystem

def empty : FileSystem := ⟨.empty⟩

def entry? (fs : FileSystem) (place : Location) : Option FileEntry :=
  if place = [] then some .directory else fs.entries.get? place

/-- Follows one name. Only directories lead on, and no name in one is too long. -/
def step? (fs : FileSystem) (place : Location) (name : String) : Option Location :=
  if fs.entry? place = some .directory ∧ name.utf8ByteSize ≤ Path.maxNameBytes then
    some (Location.follow place name)
  else none

/-- The place a path leads to, whether or not anything is there. -/
def locate? (fs : FileSystem) (path : Path) : Option Location :=
  if path.isUsable then path.names.foldlM fs.step? [] else none

def lookup? (fs : FileSystem) (path : Path) : Option FileEntry :=
  (fs.locate? path).bind fs.entry?

def isDirectory (fs : FileSystem) (path : Path) : Bool := fs.lookup? path = some .directory

def fileAt? (fs : FileSystem) (path : Path) : Option Bytes :=
  match fs.lookup? path with
  | some (.file bytes) => some bytes
  | _ => none

/-- Follows names from a directory and creates those that are missing, up to an obstacle. -/
def createAlong (fs : FileSystem) (place : Location) : List String → FileSystem
  | [] => fs
  | name :: rest =>
    match fs.step? place name with
    | none => fs
    | some next =>
      match fs.entry? next with
      | none => createAlong ⟨fs.entries.insert next .directory⟩ next rest
      | some _ => fs.createAlong next rest

/--
Creates a directory and those it lies in, from the top down. What was created stays even
where an obstacle keeps the path from being a directory in the end.
-/
def createDirectories (fs : FileSystem) (path : Path) : FileSystem :=
  if path.isUsable then fs.createAlong [] path.creatable else fs

/-- The place a file written to a path goes to. -/
def target? (fs : FileSystem) (path : Path) : Option Location :=
  (fs.locate? path).filter fun place => fs.entry? place ≠ some .directory

def writeFile? (fs : FileSystem) (path : Path) (bytes : Bytes) : Option FileSystem := do
  return ⟨fs.entries.insert (← fs.target? path) (.file bytes)⟩

/-- Moves a file, replacing a file that stands at the target. -/
def rename? (fs : FileSystem) (source target : Path) : Option FileSystem := do
  let bytes ← fs.fileAt? source
  let fromPlace ← fs.locate? source
  let toPlace ← fs.target? target
  return ⟨(fs.entries.erase fromPlace).insert toPlace (.file bytes)⟩

def removeFile? (fs : FileSystem) (path : Path) : Option FileSystem := do
  let _ ← fs.fileAt? path
  return ⟨fs.entries.erase (← fs.locate? path)⟩

/-- Every place with what is there. -/
def toList (fs : FileSystem) : List (Location × FileEntry) := fs.entries.entries

end FileSystem
end TensorGraph
