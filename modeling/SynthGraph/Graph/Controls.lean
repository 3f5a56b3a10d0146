import SynthGraph.Catalog.Synthesized
import SynthGraph.Fault
import SynthGraph.Graph

/-!
# Controls

Placeholders of parameters become one control per rate group. Groups come in the order scalar,
trigger, audio, control, and within a group parameters are sorted by name. The channels of all
parameters in this order are the slots of the definition; a control's special index is its first
slot.
-/

namespace SynthGraph

/-- The parameters of one rate, each with the position of its placeholder. -/
structure ControlGroup where
  rate : ParameterRate
  /-- The first slot. -/
  start : Nat
  members : List (Nat × Parameter)
  deriving DecidableEq, Repr

namespace ControlGroup

/-- The number of slots. -/
def size (g : ControlGroup) : Nat := (g.members.flatMap (·.2.values)).length

def isLagged (g : ControlGroup) : Bool := g.members.any (·.2.isLagged)

def descriptor (g : ControlGroup) : Descriptor :=
  match g.rate with
  | .scalar => Catalog.control
  | .trigger => Catalog.trigControl
  | .audio => Catalog.audioControl
  | .control => if g.isLagged then Catalog.lagControl else Catalog.control

/-- One lag per slot. -/
def lags (g : ControlGroup) : List Single :=
  g.members.flatMap fun (_, p) => List.replicate p.size p.lagOrZero

/-- The inputs of the control: the lags, unless no parameter glides. -/
def lagInputs (g : ControlGroup) : List Single := if g.isLagged then g.lags else []

def node (g : ControlGroup) : Node where
  className := g.descriptor.name
  rate := g.rate.calculation
  special := g.start.toUInt16
  inputs := g.lagInputs.map .constant
  keys := (List.range g.lagInputs.length).map fun i => { name := "lags", element := some i }
  outputs := g.size
  flags := g.descriptor.flags
  role := .control (g.members.map (·.2))

/-- The control of the group; its first slot must fit the special index. -/
def control (g : ControlGroup) : Except Fault Node :=
  if g.start < 65536 then .ok g.node
  else .error (.invalidInput g.descriptor.name "special_index" .tooManySlots)

/-- The output that carries channel `channel` of the placeholder at `id`. -/
def output? : List (Nat × Parameter) → Nat → Nat → Option Nat
  | [], _, _ => none
  | (placeholder, p) :: rest, id, channel =>
    if placeholder = id then if channel < p.size then some channel else none
    else (output? rest id channel).map (p.size + ·)

end ControlGroup

namespace Graph

/-- The live placeholders with their parameters. -/
def placeholders (g : Graph) : List (Nat × Parameter) :=
  g.order.filterMap fun id => (g.node id).parameter?.map (id, ·)

/-- The members of one rate group, sorted by name. -/
def groupMembers (placeholders : List (Nat × Parameter)) (rate : ParameterRate) :
    List (Nat × Parameter) :=
  (placeholders.filter (·.2.rate == rate)).mergeSort fun a b => a.2.name ≤ b.2.name

/-- The non-empty groups of the given rates, with slots counted from `start`. -/
def groupsFrom (placeholders : List (Nat × Parameter)) (start : Nat) :
    List ParameterRate → List ControlGroup
  | [] => []
  | rate :: rates =>
    let group : ControlGroup := ⟨rate, start, groupMembers placeholders rate⟩
    let rest := groupsFrom placeholders (start + group.size) rates
    if group.members.isEmpty then rest else group :: rest

def controlGroups (g : Graph) : List ControlGroup :=
  groupsFrom g.placeholders 0 ParameterRate.all

/-- The reference that replaces `ref`, where the controls stand at `first` and after it. -/
def controlRef (groups : List ControlGroup) (first : Nat) (ref : NodeRef) : NodeRef :=
  let found := (groups.zipIdx first).findSome? fun (group, id) =>
    (ControlGroup.output? group.members ref.ugen ref.output).map fun output => ⟨id, output⟩
  found.getD ref

/-- Replace placeholders by controls, which come first in the emission order. -/
def makeControls (g : Graph) : Except Fault Graph := do
  let groups := g.controlGroups
  let controls ← groups.mapM ControlGroup.control
  let first := g.nodes.size
  let rest : Graph := {
    nodes := g.nodes ++ controls.toArray
    order := g.order.filter fun id => !(g.node id).isParameter }
  let rest := rest.mapRefs (controlRef groups first)
  return { rest with order := (List.range' first controls.length) ++ rest.order }

end Graph

end SynthGraph
