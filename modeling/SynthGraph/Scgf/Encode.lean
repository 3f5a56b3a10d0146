import SynthGraph.Definition
import SynthGraph.Event
import SynthGraph.Fault
import SynthGraph.Scgf

/-!
# Writing definitions

`Definition.body` is all of a definition but its name. A definition without a name goes by the
digest of its body, so equal graphs share a name.
-/

namespace SynthGraph

namespace Scgf

def single (s : Single) : Bytes := word32 s.bits.toNat

def text (s : String) : Except Fault Bytes :=
  let bytes := s.toUTF8.toList
  if bytes.length < 256 then .ok (word8 bytes.length ++ bytes) else .error (.nameTooLong s)

end Scgf

open Scgf

namespace Definition

def inputBytes (d : Definition) (className : String) : Input → Except Fault Bytes
  | .constant value =>
    match d.constantIndex? value with
    | some index => .ok (word32 constantMark ++ word32 index)
    | none => .error (.invalidInput className "constant" (.missingConstant value))
  | .node ref => .ok (word32 ref.ugen ++ word32 ref.output)

def ugenBytes (d : Definition) (ugen : Node) : Except Fault Bytes := do
  let className ← text ugen.className
  let inputs ← ugen.inputs.mapM (d.inputBytes ugen.className)
  return className ++ word8 ugen.rate.index ++ word32 ugen.inputs.length ++ word32 ugen.outputs ++
    word16 ugen.special.toNat ++ inputs.flatten ++
    List.replicate ugen.outputs ugen.rate.index.toUInt8

/-- An entry of the name table. -/
def nameBytes (entry : Parameter × Nat) : Except Fault Bytes := do
  let name ← text entry.1.name
  return name ++ word32 entry.2

/-- Everything after the name. -/
def body (d : Definition) : Except Fault Bytes := do
  let names ← d.indexedParameters.mapM nameBytes
  let ugens ← d.ugens.mapM d.ugenBytes
  return word32 d.constants.length ++ d.constants.flatMap single ++
    word32 d.slotCount ++ d.parameters.flatMap (fun (p, _) => p.values.flatMap single) ++
    word32 d.parameters.length ++ names.flatten ++
    word32 d.ugens.length ++ ugens.flatten ++ word16 0

/-- Two hexadecimal digits. -/
def hexByte (byte : UInt8) : List Char :=
  [Nat.digitChar (byte.toNat / 16), Nat.digitChar (byte.toNat % 16)]

variable [Digest]

/-- The name a body goes by: half of its digest in hexadecimal digits. -/
def digestName (body : Bytes) : String :=
  String.ofList (((Digest.digest body).take 16).flatMap hexByte)

/-- The name by content; empty if the definition cannot be written. -/
def anonymousName (d : Definition) : String :=
  match d.body with
  | .ok body => digestName body
  | .error _ => ""

/-- The name, or the name by content if there is none. -/
def effectiveName (d : Definition) : String := d.name.getD d.anonymousName

/-- The definition as it stands in a file. -/
def bytes (d : Definition) (anonymous : Bool) : Except Fault Bytes := do
  let body ← d.body
  let name := if anonymous then digestName body else d.name.getD (digestName body)
  return (← text name) ++ body

end Definition

variable [Digest]

namespace Scgf

/-- A file of definitions, under their names by content if `anonymous` is set. -/
def encode (definitions : List Definition) (anonymous : Bool) : Except Fault Bytes := do
  if definitions.length > 65535 then throw (.malformed 0 .tooManyDefinitions)
  let all ← definitions.mapM (·.bytes anonymous)
  return magic ++ word32 version ++ word16 definitions.length ++ all.flatten

/-- What writing a file reports. -/
def encodeEvents (definitions : List Definition) (anonymous : Bool) : List Event :=
  match encode definitions anonymous with
  | .ok bytes => [.encoded bytes.length definitions.length]
  | .error _ => []

end Scgf

/-- A file of just this definition. -/
def Definition.encode (d : Definition) (anonymous : Bool) : Except Fault Bytes :=
  Scgf.encode [d] anonymous

end SynthGraph
