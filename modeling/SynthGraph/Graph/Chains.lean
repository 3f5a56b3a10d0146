import SynthGraph.Catalog.Synthesized
import SynthGraph.Graph

/-!
# Shared phase-vocoder chains

A phase-vocoder generator transforms the buffer of its chain in place. If one chain feeds several of
them, all but the last get a copy in a buffer of their own, which is as large as the buffer of the
transform at the root of the chain.
-/

namespace SynthGraph

/-- An input slot of a node. -/
structure Slot where
  ugen : Nat
  index : Nat
  deriving DecidableEq, Repr

namespace Graph

def isPv (g : Graph) (id : Nat) : Bool := (g.node id).flags.isPv

/-- The slots of a node that read a chain in place, each with the chain it reads. -/
def chainReads (g : Graph) (id : Nat) : List (Nat × Slot) :=
  let node := g.node id
  if node.flags.isPv && node.flags.pv != .copy then
    node.inputs.zipIdx.filterMap fun (input, index) =>
      match input with
      | .node ref => if g.isPv ref.ugen then some (ref.ugen, ⟨id, index⟩) else none
      | .constant _ => none
  else []

/-- The readers of every chain; chains in the order in which they are first read. -/
def chainReaders (g : Graph) : List (Nat × List Slot) :=
  let reads := g.order.flatMap g.chainReads
  let chains := reads.foldl (fun seen r => if r.1 ∈ seen then seen else seen ++ [r.1]) []
  chains.map fun chain => (chain, (reads.filter (·.1 = chain)).map (·.2))

/-- The root of a chain: the transform, or the first node on the way up whose own first input is not
a chain. A walk that takes more steps than there are nodes goes round in a circle and has no end, so
`none` stands for such a walk if `fuel` is above the number of nodes. -/
def chainRoot? (g : Graph) : Nat → Nat → Option Nat
  | 0, _ => none
  | fuel + 1, id =>
    let node := g.node id
    match node.inputs.head? with
    | some (.node ref) =>
      if node.flags.pv != .fft && g.isPv ref.ugen then g.chainRoot? fuel ref.ugen else some id
    | _ => some id

/-- Copy `chain`, whose root is `root`, for one reader: a frame count, a buffer and the copy come
right before it. -/
def copyFrom (g : Graph) (root chain : Nat) (reader : Slot) : Graph :=
  let (size, frames, g) :=
    match (g.node root).inputs.head? with
    | some input =>
      let (frames, g) := g.push (Catalog.bufFrames.instantiate .scalar [input])
      (Input.node ⟨frames, 0⟩, [frames], g)
    | none => (Input.constant 2048, [], g)
  let (buffer, g) := g.push (Catalog.localBuf.instantiate .scalar [.constant 1, size])
  let (copy, g) := g.push
    (Catalog.pvCopy.instantiate .control [.node ⟨chain, 0⟩, .node ⟨buffer, 0⟩])
  let g := g.modify reader.ugen fun node =>
    { node with inputs := node.inputs.set reader.index (.node ⟨copy, 0⟩) }
  g.insertBefore reader.ugen (frames ++ [buffer, copy])

/-- Copy `chain` for one reader; there is no result if the walk to its root has no end. -/
def copyChain (g : Graph) (chain : Nat) (reader : Slot) : Option Graph :=
  (g.chainRoot? (g.nodes.size + 1) chain).map fun root => g.copyFrom root chain reader

/-- Copy a chain for all of its readers but the last. -/
def splitChain (g : Graph) (chain : Nat) (readers : List Slot) : Option Graph :=
  readers.dropLast.foldlM (fun g reader => g.copyChain chain reader) g

/-- Copy every chain with several readers; there is no result if a walk to a root has no end. -/
def splitChains (g : Graph) : Option Graph :=
  g.chainReaders.foldlM (fun g (chain, readers) => g.splitChain chain readers) g

end Graph

end SynthGraph
