import SynthGraph.Operator
import SynthGraph.Scgf.Encode

/-!
# Printed definitions

One entry per generator. An entry lists the inputs under their names, and the default values of the
parameters if it is a control. Generators that share class, rate and special index are told apart
by a number.
-/

namespace SynthGraph

namespace Node

/-- The operator a generator applies, if it is one that applies operators. -/
def operatorLabel? (n : Node) : Option String :=
  match n.className with
  | "BinaryOpUGen" => (BinaryOperator.ofIndex? n.special.toNat).map (·.label)
  | "UnaryOpUGen" => (UnaryOperator.ofIndex? n.special.toNat).map (·.label)
  | _ => none

/-- The generators have the same class, rate and special index. -/
def sameKind (a b : Node) : Bool :=
  a.className == b.className && a.rate == b.rate && a.special == b.special

/-- The class with its operator and rate. -/
def kindName (n : Node) : String :=
  let operator := (n.operatorLabel?.map fun label => "(" ++ label ++ ")").getD ""
  n.className ++ operator ++ "." ++ n.rate.token

end Node

namespace Definition

/-- The printed name of a generator at a position. -/
def ugenName (d : Definition) (ugen : Node) (ordinal : Nat) : String :=
  if d.ugens.countP ugen.sameKind > 1 then
    s!"{ugen.kindName}/{(d.ugens.take ordinal).countP ugen.sameKind}"
  else ugen.kindName

def ugenNames (d : Definition) : List String :=
  d.ugens.zipIdx.map fun (ugen, ordinal) => d.ugenName ugen ordinal

/-- The parameter that output `output` belongs to, with the first output of that parameter. An
output beyond all parameters counts as one of the last. -/
def outputOwner (output start : Nat) : List Parameter → Option (Parameter × Nat)
  | [] => none
  | p :: rest =>
    if output < start + p.size then some (p, start)
    else if rest.isEmpty then some (p, start + p.size)
    else outputOwner output (start + p.size) rest

/-- The part of a reference that names a parameter. -/
def ownerText (producer : Node) (output : Nat) : String :=
  if producer.flags.control then
    match outputOwner output 0 producer.parameters with
    | some (p, start) => if p.size > 1 then s!":{p.name}[{output - start}]" else ":" ++ p.name
    | none => ""
  else ""

/-- The text of a reference to an output. -/
def referenceText (d : Definition) (names : Array String) (ref : NodeRef) : String :=
  let producer := d.ugens.getD ref.ugen default
  let name := names.getD ref.ugen ""
  s!"{name}[{ref.output}{ownerText producer ref.output}]"

def inputText (d : Definition) (names : Array String) : Input → String
  | .constant value => value.text
  | .node ref => d.referenceText names ref

/-- An entry under `key`; a later one takes the place of an earlier one. -/
def insertEntry (entries : List (String × String)) (entry : String × String) :
    List (String × String) :=
  if entries.any (·.1 == entry.1) then
    entries.map fun old => if old.1 == entry.1 then entry else old
  else entries ++ [entry]

/-- The defaults of a parameter, numbered unless there is one. -/
def parameterEntries (p : Parameter) : List (String × String) :=
  match p.values with
  | [value] => [(p.name, value.text)]
  | values => values.zipIdx.map fun (value, i) => (s!"{p.name}[{i}]", value.text)

def ugenEntries (d : Definition) (names : Array String) (ugen : Node) : List (String × String) :=
  let defaults := if ugen.flags.control then ugen.parameters.flatMap parameterEntries else []
  let inputs := (ugen.keys.zip ugen.inputs).map fun (key, input) =>
    (key.text, d.inputText names input)
  (defaults ++ inputs).foldl insertEntry []

def ugenText (d : Definition) (names : Array String) (ugen : Node) (name : String) : String :=
  match d.ugenEntries names ugen with
  | [] => s!"\n    -   {name}: null"
  | entries =>
    entries.foldl (fun text (key, value) => text ++ "\n            " ++ key ++ ": " ++ value)
      s!"\n    -   {name}:"

/-- The printed form of a definition. -/
def dump [Digest] (d : Definition) : String :=
  let names := d.ugenNames.toArray
  let head := "synthdef:\n    name: " ++ d.effectiveName ++ "\n    ugens:"
  (d.ugens.zip names.toList).foldl (fun text (ugen, name) => text ++ d.ugenText names ugen name)
    head

end Definition

end SynthGraph
