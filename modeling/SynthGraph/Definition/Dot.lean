import SynthGraph.Definition.Dump

/-!
# Graphviz drawings

A record per generator with a field per input, and an edge from every source to the field it feeds.
-/

namespace SynthGraph.Definition

/-- The field of one input. -/
def dotField (ugen : Node) (slot : Nat) (input : Input) : String :=
  let key := ((ugen.keys[slot]?).map (·.text)).getD s!"input_{slot}"
  match input with
  | .constant value => s!"<i{slot}> {key}: {value.text}"
  | .node _ => s!"<i{slot}> {key}"

def dotLabel (ugen : Node) (name : String) : String :=
  match ugen.inputs.zipIdx.map fun (input, slot) => dotField ugen slot input with
  | [] => name
  | fields => "\x7b" ++ name ++ "|\x7b" ++ "|".intercalate fields ++ "\x7d\x7d"

def dotNode (ordinal : Nat) (ugen : Node) (name : String) : String :=
  s!"    ugen_{ordinal} [label=\"{dotLabel ugen name}\"];\n"

def dotEdges (ordinal : Nat) (ugen : Node) : List String :=
  ugen.inputs.zipIdx.filterMap fun (input, slot) =>
    input.node?.map fun ref =>
      s!"    ugen_{ref.ugen} -> ugen_{ordinal}:i{slot} [label=\"{ref.output}\"];\n"

/-- The drawing of a definition. -/
def dot [Digest] (d : Definition) : String :=
  let head := "digraph synthdef \x7b\n    label=\"" ++ d.effectiveName ++
    "\";\n    rankdir=LR;\n    node [shape=record];\n"
  let nodes := (d.ugens.zip d.ugenNames).zipIdx.map fun ((ugen, name), ordinal) =>
    dotNode ordinal ugen name
  let edges := d.ugens.zipIdx.flatMap fun (ugen, ordinal) => dotEdges ordinal ugen
  head ++ String.join nodes ++ String.join edges ++ "\x7d"

end SynthGraph.Definition
