import SynthGraph.Disk
import SynthGraph.Options.Toml
import SynthGraph.Scgf.Decode

/-!
# Definitions and options on disk

A definition is saved in a file of its own, named after it. All names are checked before anything
is written.
-/

namespace SynthGraph

variable [Digest]

namespace Definition

/-- The name stays inside the folder it is used in. -/
def isFileName (name : String) : Bool :=
  name != "" && name != "." && name != ".." &&
    !name.toList.any fun c => c == '/' || c == '\x5c' || c == '\x00'

/-- The path of the definition's file in a folder. -/
def filePath (d : Definition) (folder : Path) : Path := folder ++ [d.effectiveName ++ ".scsyndef"]

/-- Save one definition in a folder that exists. -/
def save (d : Definition) (folder : Path) : DiskM Path := do
  match d.encode false with
  | .ok bytes =>
    let path := d.filePath folder
    Disk.write path bytes
    return path
  | .error fault => throw fault

/-- Make the folder, unless something is there already. -/
def openFolder (folder : Path) (definitions : List Definition) : DiskM Unit := do
  match definitions.find? fun d => !isFileName d.effectiveName with
  | some d => throw (.invalidFileName d.effectiveName)
  | none => unless (← get).contains folder do Disk.makeFolder folder

/-- Save the definitions in a folder, which is made if need be; returns their paths. -/
def saveAll (folder : Path) (definitions : List Definition) : DiskM (List Path) := do
  openFolder folder definitions
  definitions.mapM fun d => d.save folder

/-- What saving definitions one after the other reports. -/
def saveEvents (folder : Path) : List Definition → Disk → List Event
  | [], _ => []
  | d :: rest, disk =>
    Scgf.encodeEvents [d] false ++
      match (d.save folder).run.run disk with
      | (.ok _, disk) => saveEvents folder rest disk
      | (.error _, _) => []

/-- What saving definitions in a folder reports. -/
def saveAllEvents (folder : Path) (definitions : List Definition) (disk : Disk) : List Event :=
  match (openFolder folder definitions).run.run disk with
  | (.ok _, disk) => saveEvents folder definitions disk
  | (.error _, _) => []

/-- Read a file of definitions with the full catalog. -/
def load (path : Path) : DiskM (List Definition) := do
  match Scgf.decode (← Disk.read path) Catalog.full with
  | .ok definitions => return definitions
  | .error fault => throw fault

end Definition

/-- What reading a file with the full catalog reports. -/
def Scgf.fullDecodeEvents (bytes : Bytes) : List Event :=
  .catalog Catalog.full.length :: decodeEvents bytes Catalog.full

/-- What reading a file of definitions from disk reports. -/
def Definition.loadEvents (path : Path) (disk : Disk) : List Event :=
  match disk.at? path with
  | some (.file bytes) => Scgf.fullDecodeEvents bytes
  | _ => []

namespace Options

/-- Save options in a file, making its folder if need be. -/
def save (o : Options) (path : Path) : DiskM Unit := do
  unless (← get).contains path.dropLast do Disk.makeFolder path.dropLast
  Disk.write path o.toToml.toUTF8.toList

def load (path : Path) : DiskM Options := do
  match String.fromUTF8? (← Disk.read path).toByteArray with
  | some text =>
    match ofToml text with
    | .ok options => return options
    | .error fault => throw fault
  | none => throw .unreadableFile

end Options

end SynthGraph
