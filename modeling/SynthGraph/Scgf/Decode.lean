import SynthGraph.Catalog
import SynthGraph.Scgf.Encode

/-!
# Reading definitions

A file names the classes of its generators, not their inputs or properties; these come from a
catalog. Parameters are cut out of the value table at the slots of the name table, and take their
rate and lag from the control that covers their first slot.
-/

namespace SynthGraph.Scgf

/-! ## Reading bytes -/

/-- What is left to read, and how much has been read. -/
structure Cursor where
  offset : Nat
  rest : Bytes
  deriving DecidableEq, Repr

abbrev Read (α : Type) := StateT Cursor (Except Fault) α

/-- There are at least `count` bytes. -/
def holds (bytes : Bytes) (count : Nat) : Bool := (bytes.take count).length == count

/-- The data is found defective at the current position. -/
def fail {α : Type} (defect : Defect) : Read α := fun cursor =>
  .error (.malformed cursor.offset defect)

/-- The next `count` bytes. If there are not as many, the fault is at the end of the data. -/
def take (count : Nat) (what : String) : Read Bytes := fun cursor =>
  if holds cursor.rest count then
    .ok (cursor.rest.take count, ⟨cursor.offset + count, cursor.rest.drop count⟩)
  else .error (.malformed (cursor.offset + cursor.rest.length) (.truncated what))

/-- A number of `size` bytes. -/
def readWord (size : Nat) (what : String) : Read Nat := do
  return number (← take size what)

def readSingle (what : String) : Read Single := do
  return ⟨(← readWord 4 what).toUInt32⟩

def readText (what : String) : Read String := do
  let size ← readWord 1 what
  let bytes ← take size what
  match String.fromUTF8? bytes.toByteArray with
  | some s => return s
  | none => fail (.notText what)

/-- A count of items of at least `unit` bytes, for which there must be enough data. -/
def readCount (what : String) (unit : Nat) : Read Nat := do
  let count ← readWord 4 what
  if holds (← get).rest (count * unit) then return count else fail (.countTooLarge what count)

/-- `count` items one after the other. -/
def readMany {α : Type} (count : Nat) (item : Read α) : Read (List α) :=
  (List.replicate count ()).mapM fun _ => item

/-- A count, and that many items of at least `unit` bytes. An item may depend on the count. -/
def readList {α : Type} (what : String) (unit : Nat) (item : Nat → Read α) : Read (List α) := do
  let count ← readCount what unit
  readMany count (item count)

/-! ## Generators -/

/-- Keys for `count` inputs: a variadic input takes all that the others leave, and what is beyond
the declared inputs gets none. A class that is not known numbers its inputs. -/
def inputKeys (descriptor? : Option Descriptor) (count : Nat) : List InputKey :=
  match descriptor? with
  | none => (List.range count).map fun i => { name := s!"input_{i}" }
  | some d =>
    let extra := count - (d.inputs.length - 1)
    let keys : List InputKey := d.inputs.flatMap fun decl =>
      if decl.variadic then
        (List.range extra).map fun i => { name := decl.name, element := some i }
      else [{ name := decl.name }]
    keys.take count

def readInput (className : String) (constants : Array Single) (ugenCount : Nat) : Read Input := do
  let source ← readWord 4 "input"
  let index ← readWord 4 "input index"
  if source = constantMark then
    match constants[index]? with
    | some value => return .constant value
    | none => fail (.constantIndex index className)
  else if source < ugenCount then return .node ⟨source, index⟩
  else fail (.ugenIndex className source ugenCount)

/-- The part of a generator after the number of its inputs. -/
def readWiring (catalog : Catalog) (constants : Array Single) (ugenCount : Nat)
    (className : String) (rate : Rate) (inputCount : Nat) : Read Node := do
  let outputs ← readWord 4 "output count"
  let special ← readWord 2 "special index"
  let inputs ← readMany inputCount (readInput className constants ugenCount)
  unless holds (← get).rest outputs do fail (.outputRates className)
  let _ ← take outputs "output rate"
  let descriptor? := catalog.lookup? className <|> Catalog.synthesized.lookup? className
  return {
    className, rate, inputs, outputs
    special := special.toUInt16
    keys := inputKeys descriptor? inputCount
    flags := (descriptor?.map (·.flags)).getD {} }

def readUGen (catalog : Catalog) (constants : Array Single) (ugenCount : Nat) : Read Node := do
  let className ← readText "ugen class"
  let rateIndex ← readWord 1 "ugen rate"
  match Rate.ofIndex? rateIndex with
  | some rate =>
    let inputCount ← readCount "input count" 8
    readWiring catalog constants ugenCount className rate inputCount
  | none => fail (.rate rateIndex className)

/-! ## Parameters -/

/-- The slot is among those the control outputs. -/
def covers (control : Node) (slot : Nat) : Bool :=
  control.special.toNat ≤ slot && slot < control.special.toNat + control.outputs

/-- The rate of the parameters of a control. -/
def controlRate (control : Node) : ParameterRate :=
  if control.className = Catalog.trigControl.name then .trigger
  else
    match control.rate with
    | .scalar => .scalar
    | .audio => .audio
    | _ => .control

/-- The lag a control gives to a slot. -/
def controlLag (control : Node) (slot : Nat) : Option Single :=
  if control.className = Catalog.lagControl.name then
    match (control.inputs[slot - control.special.toNat]?).bind Input.constant? with
    | some lag => if lag.numEq 0 then none else some lag
    | none => none
  else none

/-- The parameter `name` with its values, driven by the control that covers its first slot. -/
def driven (ugens : List Node) (name : String) (slot : Nat) (values : List Single) : Parameter :=
  match ugens.find? fun ugen => ugen.flags.control && covers ugen slot with
  | some control =>
    { name, values, rate := controlRate control, lag := controlLag control slot }
  | none => { name, values }

/-- The parameters of a name table sorted by slot; each reaches to the slot of the next. -/
def parametersFrom (ugens : List Node) (values : List Single) :
    List (String × Nat) → List (Parameter × Nat)
  | [] => []
  | (name, slot) :: rest =>
    let stop := (rest.head?.map (·.2)).getD values.length
    (driven ugens name slot ((values.drop slot).take (stop - slot)), slot) ::
      parametersFrom ugens values rest

/-- A control with the parameters it covers. -/
def attach (parameters : List (Parameter × Nat)) (ugen : Node) : Node :=
  if ugen.flags.control then
    { ugen with
      role := .control ((parameters.filter fun (_, slot) => covers ugen slot).map (·.1)) }
  else ugen

/-! ## Definitions -/

/-- The tables of a definition as a file holds them. -/
structure Tables where
  name : String
  constants : List Single
  values : List Single
  names : List (String × Nat)
  ugens : List Node

def readName (valueCount : Nat) : Read (String × Nat) := do
  let name ← readText "parameter name"
  let slot ← readWord 4 "parameter index"
  if slot < valueCount then return (name, slot) else fail (.slotOutOfRange name slot valueCount)

/-- The first input that reads an output its source does not have. -/
def danglingInput? (ugens : List Node) : Option Defect :=
  let outputs := (ugens.map (·.outputs)).toArray
  ugens.zipIdx.findSome? fun (ugen, ordinal) =>
    ugen.refs.findSome? fun ref =>
      let count := outputs.getD ref.ugen 0
      if ref.output < count then none
      else some (.outputIndex ordinal ref.output ref.ugen count)

def readTables (catalog : Catalog) : Read Tables := do
  let name ← readText "synthdef name"
  let constants ← readList "constant count" 4 fun _ => readSingle "constant"
  let values ← readList "parameter value count" 4 fun _ => readSingle "parameter value"
  let names ← readList "parameter name count" 5 fun _ => readName values.length
  let ugens ← readList "ugen count" 12 (readUGen catalog constants.toArray)
  let variants ← readWord 2 "variant count"
  if variants ≠ 0 then fail (.variants variants)
  match danglingInput? ugens with
  | some defect => fail defect
  | none => return { name, constants, values, names, ugens }

variable [Digest]

/-- The definition that the tables describe. A name that is the digest of the content is none. -/
def Tables.definition (t : Tables) : Definition :=
  let parameters := parametersFrom t.ugens t.values (t.names.mergeSort fun a b => a.2 ≤ b.2)
  let d : Definition := {
    name := some t.name
    ugens := t.ugens.map (attach parameters)
    constants := t.constants
    parameters
    nameOrder := t.names.filterMap fun (_, slot) => parameters.findIdx? (·.2 = slot) }
  if t.name = d.anonymousName then { d with name := none } else d

/-- The number of definitions, and the definitions. -/
def readCounted (catalog : Catalog) : Read (List Definition) := do
  let count ← readWord 2 "synthdef count"
  readMany count (Tables.definition <$> readTables catalog)

def readDefinitions (catalog : Catalog) : Read (List Definition) := do
  let found ← take 4 "file header"
  if found ≠ magic then throw (.malformed 0 .missingHeader)
  let foundVersion ← readWord 4 "version"
  if foundVersion ≠ version then throw (.malformed 4 (.version foundVersion))
  let definitions ← readCounted catalog
  let left := (← get).rest.length
  if left ≠ 0 then fail (.trailing left)
  return definitions

/-- All definitions of a file. Classes that the catalog does not have are looked up among those the
compiler makes itself. -/
def decode (bytes : Bytes) (catalog : Catalog) : Except Fault (List Definition) :=
  (readDefinitions catalog).run' ⟨0, bytes⟩

/-- The only definition of a file. -/
def decodeSingle (bytes : Bytes) (catalog : Catalog) : Except Fault Definition := do
  match ← decode bytes catalog with
  | [d] => return d
  | definitions => throw (.malformed 6 (.notSingle definitions.length))

/-- What reading a file reports. -/
def decodeEvents (bytes : Bytes) (catalog : Catalog) : List Event :=
  match decode bytes catalog with
  | .ok definitions => [.decoded definitions.length bytes.length]
  | .error _ => []

end SynthGraph.Scgf
