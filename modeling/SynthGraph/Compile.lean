import SynthGraph.Builder
import SynthGraph.Definition
import SynthGraph.Event
import SynthGraph.Graph.Chains
import SynthGraph.Graph.Controls
import SynthGraph.Graph.Folding
import SynthGraph.Graph.Liveness
import SynthGraph.Graph.LocalBuffers
import SynthGraph.Graph.Order
import SynthGraph.Options

/-!
# Compilation

From the nodes of a builder to a definition: controls are made, shared chains are copied, local
buffers are declared, equal generators are folded if asked for, the rest is brought into execution
order, dead generators are dropped unless optimization is off, and what is left is numbered. A build
fails with a fault, or it never ends: the walk up a chain that has to be copied may go round in a
circle.
-/

namespace SynthGraph

/-- Why a build gives no definition. -/
inductive Failure where
  | fault (fault : Fault)
  /-- The build never returns. -/
  | endless
  deriving DecidableEq, Repr

namespace Graph

/-- Controls first, everything else in its order. -/
def emission (g : Graph) : List Nat :=
  let (controls, rest) := g.order.partition fun id => (g.node id).flags.control
  controls ++ rest

/-- The reference by position in an order. One to a node that is not there falls on the first
node. -/
def placed (order : List Nat) (ref : NodeRef) : NodeRef :=
  { ref with ugen := (order.idxOf? ref.ugen).getD 0 }

/-- The generators in emission order, numbered by position. -/
def numbered (g : Graph) : List Node :=
  let order := g.emission
  order.map fun id => (g.node id).mapRefs (placed order)

/-- The constants of the inputs in the order of first use, each once. -/
def constantTable (ugens : List Node) : List Single :=
  (ugens.flatMap fun node => node.inputs.filterMap Input.constant?).foldl
    (fun table value => if table.any (·.sameConstant value) then table else table ++ [value]) []

/-- Parameters one after the other, with the first slot of each. -/
def slotsFrom (start : Nat) : List Parameter → List (Parameter × Nat)
  | [] => []
  | p :: rest => (p, start) :: slotsFrom (start + p.size) rest

/-- The parameters of all controls, with their slots. -/
def parameterTable (ugens : List Node) : List (Parameter × Nat) :=
  ugens.flatMap fun node => slotsFrom node.special.toNat node.parameters

def finish (g : Graph) (name : Option String) : Definition :=
  let ugens := g.numbered
  .ofParts name ugens (constantTable ugens) (parameterTable ugens)

/-- The graph after the passes that add nodes. -/
def complete (g : Graph) : Except Failure Graph := do
  let g ← g.makeControls.mapError .fault
  match g.splitChains with
  | some g => return g.declareLocalBuffers
  | none => throw .endless

/-- Equal generators are to be folded. -/
def foldsWith (options : Options) : Bool := options.optimize && options.fold

/-- The graph after folding, if the options ask for it. -/
def foldIf (g : Graph) (options : Options) : Graph :=
  if foldsWith options then g.foldCommon.2 else g

/-- The graph without dead nodes, if the options ask for it. -/
def dropDeadIf (g : Graph) (options : Options) : Graph :=
  if options.optimize then g.dropDead.2 else g

/-- The graph after all passes. -/
def compiled (g : Graph) (options : Options) : Except Failure Graph := do
  let g ← g.complete
  let g ← (g.foldIf options).sort.mapError .fault
  return g.dropDeadIf options

def compile (g : Graph) (name : Option String) (options : Options) : Except Failure Definition := do
  return (← g.compiled options).finish name

end Graph

/-- The definition of everything that has been registered; the builder stays as it is. -/
def Builder.build (b : Builder) (options : Options) : Except Failure Definition :=
  if b.nodes.isEmpty then .error (.fault .emptyGraph)
  else (Graph.ofNodes b.nodes).compile options.effectiveName options

/-! ## What a build reports -/

namespace Graph

/-- What making controls reports. -/
def controlEvents (g : Graph) : List Event :=
  match g.controlGroups with
  | [] => []
  | groups =>
    [.controls g.placeholders.length groups.length (g.placeholders.flatMap (·.2.values)).length]

/-- What the passes that add nodes report, from the graph with its controls made and the one with
its chains copied. -/
def completionEvents (g split : Graph) : List Event :=
  let inserted := split.order.length - g.order.length
  let buffers := split.dropDeclarations.localBuffers.length
  (if inserted = 0 then [] else [.chains inserted]) ++
    (if buffers = 0 then [] else [.localBuffers buffers])

/-- What folding, sorting and dropping report, from the completed graph. -/
def optimizationEvents (g : Graph) (options : Options) : List Event :=
  let folded := if foldsWith options then [.folded g.foldCommon.1] else []
  match (g.foldIf options).sort with
  | .error _ => folded
  | .ok sorted =>
    folded ++ [.sorted sorted.order.length] ++
      if options.optimize then [.dropped sorted.dropDead.1] else []

end Graph

/-- What a build reports, up to the point where it fails or goes on for ever, if it does. -/
def Builder.buildEvents (b : Builder) (options : Options) : List Event :=
  if b.nodes.isEmpty then []
  else
    let start := Event.build b.nodes.size options.effectiveName
    let g := Graph.ofNodes b.nodes
    match g.makeControls with
    | .error _ => [start]
    | .ok withControls =>
      start :: g.controlEvents ++ match withControls.splitChains with
        | none => []
        | some split => withControls.completionEvents split ++
            split.declareLocalBuffers.optimizationEvents options

end SynthGraph
