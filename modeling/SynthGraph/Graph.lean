import SynthGraph.Descriptor

/-!
# Graphs under compilation

A graph is an arena of nodes and the list of those that are live, in emission order. A pass appends
nodes to the arena and edits the list; it never moves a node, so references stay valid until the
nodes are numbered for the last time.
-/

namespace SynthGraph

structure Graph where
  nodes : Array Node
  /-- The live nodes in emission order. -/
  order : List Nat
  deriving DecidableEq, Repr, Inhabited

namespace Graph

def ofNodes (nodes : Array Node) : Graph := ⟨nodes, List.range nodes.size⟩

def node (g : Graph) (id : Nat) : Node := g.nodes.getD id default

/-- The graph with one more node in the arena, and the position of that node. -/
def push (g : Graph) (node : Node) : Nat × Graph :=
  (g.nodes.size, { g with nodes := g.nodes.push node })

def modify (g : Graph) (id : Nat) (f : Node → Node) : Graph :=
  { g with nodes := g.nodes.modify id f }

/-- The graph with the references of all live nodes exchanged. -/
def mapRefs (g : Graph) (f : NodeRef → NodeRef) : Graph :=
  g.order.foldl (fun g id => g.modify id (·.mapRefs f)) g

/-- The graph with `new` placed before `id` in the emission order. -/
def insertBefore (g : Graph) (id : Nat) (new : List Nat) : Graph :=
  { g with order := g.order.takeWhile (· != id) ++ new ++ g.order.dropWhile (· != id) }

end Graph

/-- A node of a class the compiler makes, with the given inputs under their declared names. -/
def Descriptor.instantiate (d : Descriptor) (rate : Rate) (inputs : List Input) : Node where
  className := d.name
  rate := rate
  inputs := inputs.take d.inputs.length
  keys := (d.inputs.take inputs.length).map fun decl => { name := decl.name }
  flags := d.flags

end SynthGraph
