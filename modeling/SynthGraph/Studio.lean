import SynthGraph.Builder

/-!
# Studios

A `Studio` holds any number of builders and the stack of those that are active. Entering a builder
makes it the innermost active one and hands out a guard; giving a guard back takes the innermost
builder off the stack.
-/

namespace SynthGraph

structure Studio where
  builders : Array Builder := #[]
  /-- The active builders, innermost first. -/
  active : List Nat := []
  /-- For each guard handed out, whether it is still held. -/
  guards : Array Bool := #[]
  deriving Repr, Inhabited

namespace Studio

/-- A new empty builder, with its position. -/
def addBuilder (s : Studio) : Nat × Studio :=
  (s.builders.size, { s with builders := s.builders.push { scope := s.builders.size } })

/-- The innermost active builder. -/
def current (s : Studio) : Except Fault Nat :=
  match s.active with
  | b :: _ => .ok b
  | [] => .error .noActiveBuilder

/-- Make builder `b` the innermost active one, and hand out a guard. -/
def enter (s : Studio) (b : Nat) : Nat × Studio :=
  (s.guards.size, { s with active := b :: s.active, guards := s.guards.push true })

/-- Give guard `g` back, if it is held. -/
def leave? (s : Studio) (g : Nat) : Option Studio :=
  if s.guards[g]? = some true then
    some { s with active := s.active.tail, guards := s.guards.set! g false }
  else none

/-- Run an operation on builder `b`. What it registers stays, also if it fails. -/
def run {α : Type} (s : Studio) (b : Nat) (operation : Build α) : Except Fault α × Studio :=
  let (result, builder) := operation.run.run (s.builders.getD b { scope := b })
  (result, { s with builders := s.builders.set! b builder })

/-- Run an operation on the innermost active builder. -/
def runActive {α : Type} (s : Studio) (operation : Build α) : Except Fault α × Studio :=
  match s.current with
  | .ok b => s.run b operation
  | .error fault => (.error fault, s)

end Studio

end SynthGraph
