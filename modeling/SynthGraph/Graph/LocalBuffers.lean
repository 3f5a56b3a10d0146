import SynthGraph.Catalog.Synthesized
import SynthGraph.Graph

/-!
# Local buffers

A synth declares how many local buffers it allocates. The declaration is made anew: those the graph
holds are dropped, and one that counts the local buffers is placed before the first of them and fed
to each as its third input.
-/

namespace SynthGraph.Graph

/-- The live nodes of a class. -/
def ofClass (g : Graph) (className : String) : List Nat :=
  g.order.filter fun id => (g.node id).className == className

def dropDeclarations (g : Graph) : Graph :=
  { g with order := g.order.filter fun id => (g.node id).className != Catalog.maxLocalBufs.name }

def localBuffers (g : Graph) : List Nat := g.ofClass Catalog.localBuf.name

/-- Feed the declaration at `id` to a local buffer. -/
def declareBuffer (id : Nat) (node : Node) : Node :=
  { node with inputs := node.inputs.take 2 ++ [.node ⟨id, 0⟩], keys := node.keys.take 2 }

def declareLocalBuffers (g : Graph) : Graph :=
  let g := g.dropDeclarations
  match g.localBuffers with
  | [] => g
  | first :: rest =>
    let buffers := first :: rest
    let (id, g) := g.push
      (Catalog.maxLocalBufs.instantiate .scalar [.constant (.ofNat buffers.length)])
    let g := buffers.foldl (fun g buffer => g.modify buffer (declareBuffer id)) g
    g.insertBefore first [id]

end SynthGraph.Graph
