import SynthGraph.Fault
import SynthGraph.Graph

/-!
# Execution order

A node runs after the nodes it reads and after every width-first node listed before it. A feedback
reader reads what was written one block earlier, so it need not wait for nodes that depend on it.
`Constraints` holds these demands by position in the emission list, and `Constraints.schedule` is
the order that satisfies them and stays close to the order of construction. It counts down the
antecedents of each position and keeps a stack of those that wait for none.
-/

namespace SynthGraph

/-- Who has to come before whom, by position in the emission list. -/
structure Constraints where
  /-- The nodes each node has to follow: its sources, then width-first nodes listed before it. -/
  antecedents : List (List Nat)
  nodup : ∀ before ∈ antecedents, before.Nodup
  deriving DecidableEq, Repr

namespace Graph

/-- The position of a live node in the emission list. -/
def position? (g : Graph) (id : Nat) : Option Nat := g.order.idxOf? id

/-- The positions of the live nodes a node reads, each once. -/
def sources (g : Graph) (id : Nat) : List Nat :=
  (g.node id).refs.foldl (fun seen ref =>
    match g.position? ref.ugen with
    | some from? => if from? ∈ seen then seen else seen ++ [from?]
    | none => seen) []

theorem nodup_sources (g : Graph) (id : Nat) : (g.sources id).Nodup := by
  refine List.foldlRecOn (motive := List.Nodup) _ _ List.nodup_nil fun seen hseen ref _ => ?_
  split
  · split
    · exact hseen
    · next hnew => exact List.nodup_append.2 ⟨hseen, by simp, by grind⟩
  · exact hseen

/-- The sources of every node, by position. -/
def sourceTable (g : Graph) : List (List Nat) := g.order.map g.sources

end Graph

/-- The positions whose sources include `pos`. -/
def consumers (sources : List (List Nat)) (pos : Nat) : List Nat :=
  (sources.zipIdx.filter fun (from?, _) => from?.contains pos).map (·.2)

/-- The positions reachable from a frontier along consumers; each position enters the frontier
once, so `fuel` steps suffice if there are no more positions. -/
def reach (sources : List (List Nat)) : Nat → List Nat → List Nat → List Nat
  | 0, _, seen => seen
  | _, [], seen => seen
  | fuel + 1, pos :: frontier, seen =>
    let new := (consumers sources pos).filter (!seen.contains ·)
    reach sources fuel (frontier ++ new) (seen ++ new)

/-- The positions that depend on `start`, itself included. -/
def reachable (sources : List (List Nat)) (start : Nat) : List Nat :=
  reach sources (sources.length + 1) [start] [start]

namespace Graph

/-- The positions of the width-first nodes among the first `count`. -/
def widthFirstBefore (g : Graph) (count : Nat) : List Nat :=
  ((g.order.take count).zipIdx.filter fun (id, _) => (g.node id).flags.widthFirst).map (·.2)

/-- What the node `id` at position `pos` has to follow. -/
def antecedentsAt (g : Graph) (table : List (List Nat)) (pos id : Nat) : List Nat :=
  let sources := table.getD pos []
  let all := sources ++ (g.widthFirstBefore pos).filter (!sources.contains ·)
  if (g.node id).flags.feedbackReader then
    let dependents := reachable table pos
    all.filter (!dependents.contains ·)
  else all

theorem nodup_widthFirstBefore (g : Graph) (count : Nat) : (g.widthFirstBefore count).Nodup := by
  have hsub : (g.widthFirstBefore count).Sublist ((g.order.take count).zipIdx.map (·.2)) :=
    List.filter_sublist.map _
  rw [List.zipIdx_map_snd] at hsub
  exact hsub.nodup List.nodup_range'

theorem nodup_antecedentsAt (g : Graph) (pos id : Nat) :
    (g.antecedentsAt g.sourceTable pos id).Nodup := by
  have hsources : (g.sourceTable.getD pos []).Nodup := by
    rw [List.getD_eq_getElem?_getD, sourceTable, List.getElem?_map]
    cases g.order[pos]? with
    | none => exact List.nodup_nil
    | some id => exact g.nodup_sources id
  have hall : (g.sourceTable.getD pos [] ++
      (g.widthFirstBefore pos).filter (!(g.sourceTable.getD pos []).contains ·)).Nodup :=
    List.nodup_append.2 ⟨hsources, (g.nodup_widthFirstBefore pos).filter _, by grind⟩
  rw [antecedentsAt]
  split
  · exact hall.filter _
  · exact hall

def constraints (g : Graph) : Constraints where
  antecedents :=
    let table := g.sourceTable
    g.order.zipIdx.map fun (id, pos) => g.antecedentsAt table pos id
  nodup := by
    intro before hbefore
    obtain ⟨⟨id, pos⟩, -, rfl⟩ := List.mem_map.1 hbefore
    exact g.nodup_antecedentsAt pos id

end Graph

namespace Constraints

def size (c : Constraints) : Nat := c.antecedents.length

def antecedentsOf (c : Constraints) (pos : Nat) : List Nat := c.antecedents.getD pos []

/-- The positions that have to follow `pos`, in list order. -/
def descendants (c : Constraints) (pos : Nat) : List Nat := consumers c.antecedents pos

end Constraints

/-- How far the emission of positions has come. -/
structure Backlog where
  /-- How many antecedents of each position have not been emitted. -/
  pending : Array Nat
  /-- Which positions have become available. -/
  queued : Array Bool
  /-- The available positions that have not been emitted, the next one first. -/
  available : List Nat
  deriving DecidableEq, Repr

namespace Backlog

def enqueue (s : Backlog) (pos : Nat) : Backlog :=
  { s with queued := s.queued.setIfInBounds pos true, available := pos :: s.available }

/-- An antecedent of `pos` has been emitted. -/
def release (s : Backlog) (pos : Nat) : Backlog :=
  let s := { s with pending := s.pending.modify pos (· - 1) }
  if s.pending.getD pos 0 = 0 && !s.queued.getD pos false then s.enqueue pos else s

end Backlog

namespace Constraints

/-- At first the positions without antecedents are available. -/
def backlog (c : Constraints) : Backlog :=
  let s : Backlog := ⟨(c.antecedents.map List.length).toArray, Array.replicate c.size false, []⟩
  (List.range c.size).foldr (fun pos s => if s.pending.getD pos 0 = 0 then s.enqueue pos else s) s

/-- Emit the next available position, which releases its descendants from the last to the first.
Every position becomes available once, so `fuel` never runs out when it starts at their number. -/
def countdown (c : Constraints) : Nat → Backlog → List Nat → List Nat × Backlog
  | 0, s, emitted => (emitted, s)
  | fuel + 1, s, emitted =>
    match s.available with
    | [] => (emitted, s)
    | pos :: available =>
      let s := (c.descendants pos).foldr (fun next s => s.release next) { s with available }
      c.countdown fuel s (emitted ++ [pos])

/-- The positions in execution order, with the backlog that is left. -/
def outcome (c : Constraints) : List Nat × Backlog := c.countdown c.size c.backlog []

/-- The positions in execution order; those on a circle, and what depends on them, are missing. -/
def schedule (c : Constraints) : List Nat := c.outcome.1

end Constraints

namespace Graph

/-- Reorder the emission list so that every node follows its antecedents. -/
def sort (g : Graph) : Except Fault Graph :=
  let (order, rest) := g.constraints.outcome
  if order.length = g.order.length then
    .ok { g with order := order.filterMap (g.order[·]?) }
  else
    let stuck := g.order.zipIdx.filter fun (_, pos) => !rest.queued.getD pos false
    .error (.cyclicGraph (stuck.map fun (id, _) => (g.node id).className))

end Graph

end SynthGraph
