import SynthGraph.Graph.Order

/-!
# Dead nodes

A pure node that nothing depends on can go, and with it what only dead nodes depend on. A node is
kept by everything that reads it, feedback included, and by later nodes that it has to precede as a
width-first node. The pass counts the dependents of each position, and a position that is removed
counts no longer for what it depends on.
-/

namespace SynthGraph

/-- How far the dropping of dead positions has come. -/
structure Cull where
  /-- How many dependents each position has left. -/
  dependents : Array Nat
  removed : Array Bool
  /-- The dead positions that have not been removed, the next one first. -/
  dead : List Nat
  deriving DecidableEq, Repr

namespace Graph

/-- The positions that each position depends on: its antecedents and all it reads. -/
def dependencies (g : Graph) : List (List Nat) :=
  let antecedents := g.constraints.antecedents
  g.order.zipIdx.map fun (id, pos) =>
    let before := antecedents.getD pos []
    before ++ (g.sources id).filter (!before.contains ·)

/-- For each position the number of those that depend on it. -/
def dependentCounts (g : Graph) : Array Nat :=
  g.dependencies.foldl
    (fun counts row => row.foldl (fun counts pos => counts.modify pos (· + 1)) counts)
    (Array.replicate g.order.length 0)

def isPureAt (g : Graph) (pos : Nat) : Bool :=
  (g.order[pos]?).any fun id => (g.node id).flags.pure

/-- At first the pure positions without dependents are dead. -/
def startCull (g : Graph) : Cull :=
  let dependents := g.dependentCounts
  let dead := (List.range g.order.length).filter fun pos =>
    g.isPureAt pos && dependents.getD pos 0 == 0
  ⟨dependents, Array.replicate g.order.length false, dead.reverse⟩

/-- One of the dependents of `pos` has been removed. -/
def unlink (g : Graph) (s : Cull) (pos : Nat) : Cull :=
  let s := { s with dependents := s.dependents.modify pos (· - 1) }
  if s.dependents.getD pos 0 = 0 && g.isPureAt pos && !s.removed.getD pos false then
    { s with dead := pos :: s.dead }
  else s

/-- Remove the next dead position and unlink all it depends on. No position is found dead twice, so
`fuel` never runs out when it starts at their number. -/
def cull (g : Graph) (dependencies : List (List Nat)) : Nat → Cull → Cull
  | 0, s => s
  | fuel + 1, s =>
    match s.dead with
    | [] => s
    | pos :: dead =>
      if s.removed.getD pos false then g.cull dependencies fuel { s with dead }
      else
        let s := { s with dead, removed := s.removed.setIfInBounds pos true }
        g.cull dependencies fuel ((dependencies.getD pos []).foldl g.unlink s)

/-- Which positions are dead. -/
def removed (g : Graph) : Array Bool :=
  (g.cull g.dependencies g.order.length g.startCull).removed

/-- Drop the dead nodes; the others keep their order. Returns the number of dropped nodes. -/
def dropDead (g : Graph) : Nat × Graph :=
  let removed := g.removed
  let order := (g.order.zipIdx.filter fun (_, pos) => !removed.getD pos false).map (·.1)
  (g.order.length - order.length, { g with order })

end Graph

end SynthGraph
