import SynthGraph.Fault
import SynthGraph.Signal

/-!
# Envelopes

A breakpoint envelope is a starting level and a list of segments. Envelope generators take it as
one flat list of numbers, in one of two layouts: `Envelope.layout` for playing it under a gate and
`Envelope.indexedLayout` for reading it at a point in time. Both write every segment; they differ
in their four leading entries and in the order within a segment.
-/

namespace SynthGraph

/-- The named shapes of a segment, in the order of their codes. -/
inductive Shape where
  | step
  | linear
  | exponential
  | sine
  | welch
  | custom
  | squared
  | cubed
  | hold
  deriving DecidableEq, Repr

namespace Shape

def all : List Shape := [step, linear, exponential, sine, welch, custom, squared, cubed, hold]

def name : Shape → String
  | step => "Step"
  | linear => "Linear"
  | exponential => "Exponential"
  | sine => "Sine"
  | welch => "Welch"
  | custom => "Custom"
  | squared => "Squared"
  | cubed => "Cubed"
  | hold => "Hold"

def ofName? (name : String) : Option Shape := all.find? (·.name == name)

def code (shape : Shape) : Single := .ofNat (all.idxOf shape)

end Shape

/-- How a segment moves to its target: by a named shape, or with a curvature. -/
inductive Curve where
  | shape (shape : Shape)
  | curvature (value : Single)
  deriving DecidableEq, Repr

namespace Curve

/-- The shape code of a segment. -/
def code : Curve → Single
  | shape s => s.code
  | curvature _ => Shape.custom.code

/-- The curvature written beside the shape code. -/
def bend : Curve → Single
  | shape _ => 0
  | curvature value => value

end Curve

structure Segment where
  amplitude : Single
  duration : Single
  curve : Curve
  deriving DecidableEq, Repr

structure Envelope where
  initial : Single
  segments : List Segment
  release : Option Nat := none
  loop : Option Nat := none
  offset : Single := 0
  deriving DecidableEq, Repr

namespace Envelope

/-- One segment per target level and duration; segment `i` has the curve `curve i`. -/
def segmentsOf (targets durations : List Single) (curve : Nat → Curve) : List Segment :=
  (targets.zip durations).zipIdx.map fun ((amplitude, duration), i) =>
    ⟨amplitude, duration, curve i⟩

/-- Segment `i` takes the given curves in turn; without curves it is linear. -/
def curveAt (curves : List Curve) (i : Nat) : Curve :=
  if h : curves = [] then .shape .linear
  else curves.get ⟨i % curves.length, Nat.mod_lt _ (List.length_pos_iff.2 h)⟩

/-- An envelope through the given levels: at least two, and one duration between neighbours. -/
def ofLevels (amplitudes durations : List Single) (curves : List Curve) : Except Fault Envelope :=
  match amplitudes with
  | initial :: target :: targets =>
    if durations.length = targets.length + 1 then
      .ok { initial, segments := segmentsOf (target :: targets) durations (curveAt curves) }
    else .error (.invalidEnvelope (.durationCount amplitudes.length durations.length))
  | _ => .error (.invalidEnvelope (.fewAmplitudes amplitudes.length))

def ofSegments (initial : Single) (segments : List Segment) : Except Fault Envelope :=
  if segments.isEmpty then .error (.invalidEnvelope .noSegments) else .ok { initial, segments }

/-- The envelope that holds at the given node while its gate is open. -/
def holdingAt (e : Envelope) (node : Nat) : Envelope := { e with release := some node }

/-! ## Standard envelopes -/

/-- An envelope through levels that are known to fit their durations. A curve index outside the
list, which only an empty list has, means a linear segment. -/
def standard (initial : Single) (targets durations : List Single) (curves : List Curve) :
    Envelope where
  initial := initial
  segments := segmentsOf targets durations fun i =>
    curves.getD (i % max curves.length 1) (.shape .linear)

/-- Attack, decay to the sustained level, release; it holds at node 2. -/
def adsr (attack decay sustain release peak curve bias : Single) : Envelope :=
  (standard (0 + bias) [peak + bias, peak * sustain + bias, 0 + bias] [attack, decay, release]
    [.curvature curve]).holdingAt 2

/-- Attack, sustained level, release; it holds at node 1. -/
def asr (attack sustain release curve : Single) : Envelope :=
  (standard 0 [sustain, 0] [attack, release] [.curvature curve]).holdingAt 1

def percussive (attack release amplitude curve : Single) : Envelope :=
  standard 0 [amplitude, 0] [attack, release] [.curvature curve]

/-- Attack, a level held for a time, release. -/
def linen (attack sustain release level : Single) (curve : Curve) : Envelope :=
  standard 0 [level, level, 0] [attack, sustain, release] [curve]

/-- A linear rise and a linear fall of half the duration each. -/
def triangle (duration amplitude : Single) : Envelope :=
  standard 0 [amplitude, 0] [duration / 2, duration / 2] []

/-- Up to one and back to zero in two linear seconds. -/
def unit : Envelope := standard 0 [1, 0] [1, 1] []

/-! ## Views -/

def amplitudes (e : Envelope) : List Single := e.initial :: e.segments.map (·.amplitude)

def durations (e : Envelope) : List Single := e.segments.map (·.duration)

/-- The total duration. -/
def duration (e : Envelope) : Single := .sum e.durations

/-! ## Layouts -/

/-- The number written for a node, or for its absence. -/
def nodeCode (node : Option Nat) : Single :=
  match node with
  | some n => .ofNat n
  | none => -99

/-- Starting level, number of segments, release and loop node, then the segments. -/
def layout (e : Envelope) : List Single :=
  [e.initial, .ofNat e.segments.length, nodeCode e.release, nodeCode e.loop] ++
    e.segments.flatMap fun s => [s.amplitude, s.duration, s.curve.code, s.curve.bend]

/-- Offset, starting level, number of segments and total duration, then the segments. -/
def indexedLayout (e : Envelope) : List Single :=
  [e.offset, e.initial, .ofNat e.segments.length, e.duration] ++
    e.segments.flatMap fun s => [s.duration, s.curve.code, s.curve.bend, s.amplitude]

/-- The gated layout as a vector of constants. -/
def signal (e : Envelope) : Signal := .vector (e.layout.map .constant)

end Envelope

end SynthGraph
