import SynthGraph.Fault
import SynthGraph.Scgf

/-!
# A disk

Files and folders under one root folder that is always there. The operations fail where a file
system does: below a file, onto a folder, or with a name that is too long.
-/

namespace SynthGraph

/-- The names from the root folder down. -/
abbrev Path := List String

inductive Entry where
  | folder
  | file (content : Bytes)
  deriving DecidableEq, Repr

structure Disk where
  entries : List (Path × Entry) := []
  deriving DecidableEq, Repr, Inhabited

abbrev DiskM (α : Type) := ExceptT Fault (StateM Disk) α

namespace Disk

/-- The longest name of a file or folder, in bytes. -/
def maxNameSize : Nat := 255

def at? (disk : Disk) (path : Path) : Option Entry :=
  if path = [] then some .folder else disk.entries.lookup path

def contains (disk : Disk) (path : Path) : Bool := (disk.at? path).isSome

def put (disk : Disk) (path : Path) (entry : Entry) : Disk :=
  ⟨(path, entry) :: disk.entries.filter (·.1 != path)⟩

/-- The folder exists, or is made together with those above it that are missing. -/
def makeFolder (path : Path) : DiskM Unit :=
  (List.range path.length).forM fun depth => do
    let disk ← get
    let folder := path.take (depth + 1)
    match disk.at? folder with
    | some .folder => pure ()
    | some (.file _) => throw .uncreatableDirectory
    | none =>
      if (folder.getLastD "").utf8ByteSize > maxNameSize then throw .uncreatableDirectory
      set (disk.put folder .folder)

/-- Write a file, over the one that is there. -/
def write (path : Path) (content : Bytes) : DiskM Unit := do
  let disk ← get
  if disk.at? path.dropLast ≠ some .folder || disk.at? path = some .folder ||
      (path.getLastD "").utf8ByteSize > maxNameSize then
    throw .unwritableFile
  set (disk.put path (.file content))

def read (path : Path) : DiskM Bytes := do
  match (← get).at? path with
  | some (.file content) => return content
  | _ => throw .unreadableFile

end Disk

end SynthGraph
