import SynthGraph.Descriptor
import SynthGraph.Expansion

/-!
# Builders

A `Builder` collects nodes. Registering a call checks the rate, matches arguments with inputs,
expands vectors and validates every node before the first one is appended, so a failed call changes
nothing. Parameters live among the nodes as placeholders until the graph is compiled.

`Build` is the monad of operations on one builder. A fault does not undo what an operation has
registered before it.
-/

namespace SynthGraph

structure Builder where
  /-- Tells the outlets of this builder from those of another one. -/
  scope : Nat
  nodes : Array Node := #[]
  deriving Repr, Inhabited

abbrev Build (α : Type) := ExceptT Fault (StateM Builder) α

/-- A call of a generator, before it is registered. -/
structure Call where
  descriptor : Descriptor
  rate : Rate
  args : List (String × Signal) := []
  special : UInt16 := 0
  channels : Option Nat := none
  deriving Repr

namespace Call

def arg (call : Call) (name : String) (value : Signal) : Call :=
  { call with args := call.args ++ [(name, value)] }

/-- The last argument given for an input, or its default. -/
def value? (call : Call) (decl : InputDecl) : Option Signal :=
  match call.args.reverse.find? (·.1 == decl.name) with
  | some (_, value) => some value
  | none => decl.default?.map .constant

def argument (call : Call) (decl : InputDecl) : Except Fault Argument :=
  match call.value? decl with
  | some value => .ok ⟨decl.name, value, decl.variadic⟩
  | none => .error (.missingInput call.descriptor.name decl.name)

/-- One argument per input, in the order of the descriptor. -/
def arguments (call : Call) : Except Fault (List Argument) :=
  let ugen := call.descriptor.name
  if !call.descriptor.supports call.rate then
    .error (.rateMismatch ugen (.unsupported call.rate))
  else
    match call.args.find? fun given => (call.descriptor.input? given.1).isNone with
    | some (name, _) => .error (.unknownInput ugen name)
    | none => call.descriptor.inputs.mapM call.argument

def outputs (call : Call) : Nat :=
  match call.descriptor.outputs with
  | .fixed count => count
  | .channels count => call.channels.getD count

end Call

/-- The scalars that fill an input, each with its key. -/
def InputDecl.elements (decl : InputDecl) (value : Signal) : List (InputKey × Signal) :=
  if decl.variadic then
    value.leaves.zipIdx.map fun (leaf, i) => ({ name := decl.name, element := some i }, leaf)
  else [({ name := decl.name }, value)]

namespace Builder

/-- A scalar as an input of a node of this builder. -/
def wire (b : Builder) (ugen input : String) : Signal → Except Fault Input
  | .constant value => .ok (.constant value)
  | .outlet p =>
    if p.scope = b.scope ∧ p.ugen < b.nodes.size then .ok (.node ⟨p.ugen, p.output⟩)
    else .error (.foreignNode ugen)
  | .vector _ => .error (.invalidInput ugen input .notSingleChannel)

/-- The rate of a source fits the input it feeds. -/
def checkRate (call : Call) (decl : InputDecl) : Signal → Except Fault Unit
  | .outlet p =>
    if decl.check.allows call.rate p.rate then .ok ()
    else .error (.rateMismatch call.descriptor.name (.input decl.name p.rate call.rate))
  | _ => .ok ()

/-- One input slot of a new node. -/
def slot (b : Builder) (call : Call) (decl : InputDecl) (element : InputKey × Signal) :
    Except Fault (InputKey × Input) := do
  let input ← b.wire call.descriptor.name decl.name element.2
  checkRate call decl element.2
  return (element.1, input)

/-- The node of one expanded call. -/
def node (b : Builder) (call : Call) (values : List Signal) : Except Fault Node := do
  let slots ← (call.descriptor.inputs.zip values).mapM fun (decl, value) =>
    (decl.elements value).mapM (b.slot call decl)
  return {
    className := call.descriptor.name
    rate := call.rate
    special := call.special
    inputs := slots.flatten.map (·.2)
    keys := slots.flatten.map (·.1)
    outputs := call.outputs
    flags := call.descriptor.flags }

/-- The nodes a call registers, one for each call it expands to. -/
def plan (b : Builder) (call : Call) : Except Fault (List Node) := do
  let args ← call.arguments
  let calls ← Expansion.expand call.descriptor.name args
  calls.mapM (b.node call)

/-- The outputs of the node at position `id`. -/
def outlets (b : Builder) (id outputs : Nat) (rate : Rate) : Signal :=
  .collapse ((List.range outputs).map fun output => .outlet ⟨b.scope, id, output, rate⟩)

def append (b : Builder) (nodes : List Node) : Builder :=
  { b with nodes := b.nodes ++ nodes.toArray }

/-- The parameter of the given name, with its position. -/
def parameter? (b : Builder) (name : String) : Option (Nat × Parameter) :=
  b.nodes.toList.zipIdx.findSome? fun (node, id) =>
    match node.parameter? with
    | some p => if p.name = name then some (id, p) else none
    | none => none

/-- The parameters in the order of registration. -/
def parameters (b : Builder) : List Parameter := b.nodes.toList.filterMap Node.parameter?

def parameterOutlets (b : Builder) (id : Nat) (p : Parameter) : Signal :=
  b.outlets id p.size p.rate.calculation

/-- The node that holds the place of a parameter. -/
def placeholder (p : Parameter) : Node where
  className := "Parameter"
  rate := p.rate.calculation
  outputs := p.size
  role := .parameter p

end Builder

/-- Lags agree: both absent, or equal as numbers. -/
def Parameter.sameLag (p q : Parameter) : Bool :=
  match p.lag, q.lag with
  | none, none => true
  | some a, some b => a.numEq b
  | _, _ => false

/-- Both describe the same control: only the values may differ. -/
def Parameter.compatible (p q : Parameter) : Bool :=
  p.rate == q.rate && p.size == q.size && p.sameLag q

/-- The longest name a definition file can hold, in bytes. -/
def maxNameSize : Nat := 255

namespace Build

/-- Register a call and return the outputs of its nodes. -/
def register (call : Call) : Build Signal := do
  let b ← get
  let nodes ← (b.plan call : Except Fault (List Node))
  set (b.append nodes)
  return .collapse <| (nodes.zipIdx b.nodes.size).map fun (node, id) =>
    b.outlets id node.outputs node.rate

/-- Register a parameter, or find the one that already has its name. -/
def addParameter (p : Parameter) : Build Signal := do
  if p.values.isEmpty then throw (.invalidInput "Parameter" p.name .noValues)
  if p.name.utf8ByteSize > maxNameSize then throw (.nameTooLong p.name)
  let b ← get
  match b.parameter? p.name with
  | some (id, existing) =>
    if existing.compatible p then return b.parameterOutlets id existing
    else throw (.duplicateParameter p.name)
  | none =>
    set (b.append [Builder.placeholder p])
    return b.parameterOutlets b.nodes.size p

/-- The parameter of the given name; a new one starts at zero. -/
def parameter (name : String) : Build Signal := do
  let b ← get
  match b.parameter? name with
  | some (id, existing) => return b.parameterOutlets id existing
  | none => addParameter { name, values := [0] }

/-- Feed input `index` of a registered generator from another source. -/
def setInput (id index : Nat) (value : Signal) : Build Unit := do
  let b ← get
  match b.nodes[id]? with
  | none => throw (.invalidInput "UGen" s!"UGenId({id})" .noSuchUGen)
  | some node =>
    if node.isParameter then throw (.invalidInput "UGen" s!"UGenId({id})" .noSuchUGen)
    if node.inputs.length ≤ index then
      throw (.invalidInput node.className (toString index) .indexOutOfRange)
    let input ← (b.wire node.className "input" value : Except Fault Input)
    set { b with nodes := b.nodes.set! id { node with inputs := node.inputs.set index input } }

end Build

end SynthGraph
