import SynthGraph.Node

/-!
# Descriptors of unit generators

A `Descriptor` says of a class of generators what its inputs are called, which have defaults, at
which rates it runs and how many outputs it has. One constructor serves all classes, so a catalog
is nothing but a list of descriptors.
-/

namespace SynthGraph

inductive Category where
  | oscillator
  | noise
  | filter
  | delay
  | envelope
  | inputOutput
  | buffer
  | spectral
  | panning
  | operator
  | control
  deriving DecidableEq, Repr, Inhabited

namespace Category

def all : List Category :=
  [oscillator, noise, filter, delay, envelope, inputOutput, buffer, spectral, panning, operator,
    control]

def name : Category → String
  | oscillator => "Oscillator"
  | noise => "Noise"
  | filter => "Filter"
  | delay => "Delay"
  | envelope => "Envelope"
  | inputOutput => "I/O"
  | buffer => "Buffer"
  | spectral => "Spectral"
  | panning => "Panning"
  | operator => "Operator"
  | control => "Control"

def ofName? (name : String) : Option Category := all.find? (·.name == name)

def description : Category → String
  | oscillator => "Sine, sawtooth, pulse, and other periodic generators"
  | noise => "White, pink, and brown noise, dust, and random values"
  | filter => "Lowpass, highpass, bandpass, lags, and decays"
  | delay => "Delay lines, comb filters, and allpass delays"
  | envelope => "Envelope generators, lines, and synth lifecycle triggers"
  | inputOutput => "Bus reads and writes, including local feedback buses"
  | buffer => "Buffer allocation, playback, and queries"
  | spectral => "FFT, IFFT, and phase-vocoder chain processors"
  | panning => "Stereo and multichannel panners"
  | operator => "Operator and summing UGens built from expressions"
  | control => "Parameter controls synthesized at build time"

end Category

/-- A condition on the rate of what feeds an input. -/
inductive RateCheck where
  | any
  /-- A generator at audio rate is fed at audio rate. -/
  | audioWhenAudio
  /-- The source is at most as fast as the generator, or demand driven. -/
  | notFaster
  deriving DecidableEq, Repr, Inhabited

/-- A source at rate `source` may feed a generator at rate `rate`. -/
def RateCheck.allows (check : RateCheck) (rate source : Rate) : Bool :=
  match check with
  | any => true
  | audioWhenAudio => rate != .audio || source == .audio
  | notFaster => source.index ≤ rate.index || source == .demand

structure InputDecl where
  name : String
  /-- The value taken if no argument is given; without one, the argument is required. -/
  default? : Option Single
  /-- The input takes a whole list of values instead of expanding over it. -/
  variadic : Bool := false
  check : RateCheck := .any
  deriving DecidableEq, Repr

inductive OutputDecl where
  | fixed (count : Nat)
  | channels (count : Nat)
  deriving DecidableEq, Repr, Inhabited

structure Descriptor where
  name : String
  description : String
  category : Category
  inputs : List InputDecl
  rates : List Rate
  outputs : OutputDecl := .fixed 1
  flags : Flags := {}
  deriving DecidableEq, Repr, Inhabited

namespace Descriptor

def supports (d : Descriptor) (rate : Rate) : Bool := d.rates.contains rate

/-- The first input of the given name, with its position. -/
def input? (d : Descriptor) (name : String) : Option (Nat × InputDecl) :=
  match d.inputs.findIdx? (·.name == name) with
  | some i => d.inputs[i]?.map (i, ·)
  | none => none

end Descriptor

/-- Descriptors by class name; the first match counts. -/
abbrev Catalog := List Descriptor

def Catalog.lookup? (catalog : Catalog) (name : String) : Option Descriptor :=
  catalog.find? (·.name == name)

/-- An input with a default. -/
def optional (name : String) (value : Single) : InputDecl := { name, default? := some value }

def required (name : String) : InputDecl := { name, default? := none }

end SynthGraph
