import SynthGraph.Arithmetic
import SynthGraph.Catalog.Buses
import SynthGraph.Catalog.Envelopes
import SynthGraph.Catalog.Spectra
import SynthGraph.Envelope

/-!
# Constructors that need more than a descriptor

Envelope generators take an envelope in its flat layout, a local bus reader repeats its default to
one value per channel, a bus writer follows the rate of its source, and a Fourier transform
allocates a buffer of its own if it is given none.
-/

namespace SynthGraph

namespace Call

/-- Play an envelope. -/
def envGen (rate : Rate) (envelope : Envelope) : Call where
  descriptor := Catalog.envGen
  rate := rate
  args := [("envelope", envelope.signal)]

/-- Read an envelope at a point in time. -/
def iEnvGen (rate : Rate) (envelope : Envelope) (index : Signal) : Call where
  descriptor := Catalog.iEnvGen
  rate := rate
  args := [("index", index), ("envelope", .vector (envelope.indexedLayout.map .constant))]

/-- The first `count` elements of the list repeated for ever; zeros if the list is empty. -/
def cycled (values : List Signal) (count : Nat) : List Signal :=
  (List.range count).map fun i => values.getD (i % values.length) (.constant 0)

/-- Read the local bus, with the leaves of `default` repeated to one value per channel. -/
def localIn (rate : Rate) (count : Nat) (default : Signal) : Call where
  descriptor := Catalog.localIn
  rate := rate
  args := [("default", .vector (cycled default.leaves count))]
  channels := some count

end Call

/-- A Fourier transform, before it is registered. -/
structure FftCall where
  source : Signal
  /-- The buffer to transform into; a local one if absent. -/
  bufferId : Option Signal := none
  hop : Signal := .constant 0.5
  windowType : Signal := .constant 0
  active : Signal := .constant 1
  windowSize : Signal := .constant 0
  deriving Repr

/-- The frames of a local buffer: the window size, or 2048 if that is zero. -/
def FftCall.frameCount (call : FftCall) : Signal :=
  if call.windowSize.isConstant 0 then .constant 2048 else call.windowSize

namespace Build

/-- Write `source` to consecutive buses, at audio rate if any channel is. -/
def out (bus source : Signal) : Build Unit := do
  let rate := if source.rate = .audio then .audio else .control
  let _ ← register { descriptor := Catalog.out, rate, args := [("bus", bus), ("source", source)] }
  return ()

/-- Register the transform, after the buffer it needs. -/
def fft (call : FftCall) : Build Signal := do
  let bufferId ← match call.bufferId with
    | some bufferId => pure bufferId
    | none => register {
        descriptor := Catalog.localBuf, rate := .scalar
        args := [("frame_count", call.frameCount)] }
  register {
    descriptor := Catalog.fft, rate := .control
    args := [("buffer_id", bufferId), ("source", call.source), ("hop", call.hop),
      ("window_type", call.windowType), ("active", call.active),
      ("window_size", call.windowSize)] }

end Build

end SynthGraph
