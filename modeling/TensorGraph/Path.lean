/-!
Paths as they are written: names with slashes between them. A path keeps its spelling, since
messages show it; what it leads to is a matter of the file system.
-/

namespace TensorGraph

/-- An empty name stands where two slashes meet and after a slash at the end. -/
structure Path where
  names : List String
  deriving DecidableEq, Repr

namespace Path

/-- The most bytes in a name. -/
def maxNameBytes : Nat := 255

/-- The most bytes in a path. -/
def maxBytes : Nat := 4095

def ofText (text : String) : Path := ⟨text.splitOn "/"⟩

def render (path : Path) : String := String.intercalate "/" path.names

/-- Whether a path is short enough and free of NUL, which would end it early. No other path
leads anywhere. -/
def isUsable (path : Path) : Bool :=
  path.render.utf8ByteSize ≤ maxBytes && !path.render.toList.contains '\x00'

/-- A path that starts with a slash starts at the root. -/
def isAbsolute (path : Path) : Bool := path.names.head? = some "" && path.names.length ≠ 1

/-- A path read from a directory. A slash that ends the directory is not doubled. -/
def join (directory path : Path) : Path :=
  if path.isAbsolute then path
  else if directory.names.getLast? = some "" then ⟨directory.names.dropLast ++ path.names⟩
  else ⟨directory.names ++ path.names⟩

def extend (path : Path) (text : String) : Path :=
  ⟨path.names.dropLast ++ [path.names.getLastD "" ++ text]⟩

/-- Whether a name leads from a directory to itself. -/
def staysPut (name : String) : Bool := name = "" || name = "."

/--
The names of a path that may be created. A dot can only follow the name of a directory that
exists, so that the name before a final dot is not among them.
-/
def creatable (path : Path) : List String :=
  let ending := path.names.reverse.takeWhile staysPut
  if ending.contains "." then (path.names.take (path.names.length - ending.length)).dropLast
  else path.names

end Path
end TensorGraph
