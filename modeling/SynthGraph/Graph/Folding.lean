import SynthGraph.Graph

/-!
# Folding common subexpressions

Pure nodes with the same structure compute the same signal. Folding keeps the earliest of them in
emission order and turns every reference to another one to it, until no two live pure nodes have the
same structure.
-/

namespace SynthGraph

/-- An input as folding sees it: both zeros are alike. -/
inductive InputShape where
  | constant (key : UInt32)
  | node (ref : NodeRef)
  deriving DecidableEq, Repr

/-- What two nodes must share to be folded. -/
structure Structure where
  className : String
  rate : Rate
  special : UInt16
  inputs : List InputShape
  outputs : Nat
  deriving DecidableEq, Repr

/-- A survivor for each folded node. -/
abbrev Survivors := List (Nat × Nat)

namespace Survivors

/-- The node that stands for `id`. -/
def resolve (survivors : Survivors) (id : Nat) : Nat := (survivors.lookup id).getD id

def resolveRef (survivors : Survivors) (ref : NodeRef) : NodeRef :=
  { ref with ugen := survivors.resolve ref.ugen }

end Survivors

/-- The structure of a node, its references resolved. -/
def Node.structure (n : Node) (survivors : Survivors) : Structure where
  className := n.className
  rate := n.rate
  special := n.special
  inputs := n.inputs.map fun
    | .constant value => .constant value.key
    | .node ref => .node (survivors.resolveRef ref)
  outputs := n.outputs

namespace Graph

/-- The structures met so far with their first node, and the nodes folded so far. -/
structure FoldState where
  seen : List (Structure × Nat) := []
  survivors : Survivors := []

/-- Meet one node in emission order. -/
def foldVisit (g : Graph) (state : FoldState) (id : Nat) : FoldState :=
  let node := g.node id
  if node.flags.pure then
    let key := node.structure state.survivors
    match state.seen.lookup key with
    | some survivor => { state with survivors := state.survivors ++ [(id, survivor)] }
    | none => { state with seen := state.seen ++ [(key, id)] }
  else state

/-- The nodes that one pass folds. -/
def duplicates (g : Graph) : Survivors := (g.order.foldl g.foldVisit {}).survivors

/-- Drop folded nodes and turn references to their survivors. -/
def merge (g : Graph) (survivors : Survivors) : Graph :=
  let kept : Graph :=
    { g with order := g.order.filter fun id => (survivors.lookup id).isNone }
  kept.mapRefs survivors.resolveRef

/-- Fold until nothing changes; `fuel` bounds the passes, each of which drops a node. Returns the
number of folded nodes. -/
def foldPasses : Nat → Graph → Nat × Graph
  | 0, g => (0, g)
  | fuel + 1, g =>
    match g.duplicates with
    | [] => (0, g)
    | duplicate :: rest =>
      let survivors := duplicate :: rest
      let (count, folded) := foldPasses fuel (g.merge survivors)
      (survivors.length + count, folded)

def foldCommon (g : Graph) : Nat × Graph := foldPasses (g.order.length + 1) g

end Graph

end SynthGraph
