import SynthGraph.Descriptor

/-!
# Generators the compiler makes itself

Controls, operators, sums and the buffer generators that the phase-vocoder and local-buffer passes
insert. Compilation needs no other descriptors.
-/

namespace SynthGraph.Catalog

def control : Descriptor where
  name := "Control"
  description := "Parameter outputs"
  category := .control
  inputs := []
  rates := [.scalar, .control]
  outputs := .channels 1
  flags := { control := true }

def lagControl : Descriptor where
  name := "LagControl"
  description := "Lagged parameter outputs"
  category := .control
  inputs := [{ required "lags" with variadic := true }]
  rates := [.control]
  outputs := .channels 1
  flags := { control := true }

def trigControl : Descriptor where
  name := "TrigControl"
  description := "Trigger parameter outputs"
  category := .control
  inputs := []
  rates := [.control]
  outputs := .channels 1
  flags := { control := true }

def audioControl : Descriptor where
  name := "AudioControl"
  description := "Audio-rate parameter outputs"
  category := .control
  inputs := []
  rates := [.audio]
  outputs := .channels 1
  flags := { control := true }

def binaryOpUGen : Descriptor where
  name := "BinaryOpUGen"
  description := "Binary operator"
  category := .operator
  inputs := [required "left", required "right"]
  rates := [.scalar, .control, .audio, .demand]
  flags := { pure := true }

def unaryOpUGen : Descriptor where
  name := "UnaryOpUGen"
  description := "Unary operator"
  category := .operator
  inputs := [required "source"]
  rates := [.scalar, .control, .audio, .demand]
  flags := { pure := true }

def mulAdd : Descriptor where
  name := "MulAdd"
  description := "Multiply then add"
  category := .operator
  inputs := [required "source", optional "multiplier" 1, optional "addend" 0]
  rates := [.scalar, .control, .audio]
  flags := { pure := true }

def sum3 : Descriptor where
  name := "Sum3"
  description := "Three-input sum"
  category := .operator
  inputs := [required "input_one", required "input_two", required "input_three"]
  rates := [.scalar, .control, .audio, .demand]
  flags := { pure := true }

def sum4 : Descriptor where
  name := "Sum4"
  description := "Four-input sum"
  category := .operator
  inputs := [
    required "input_one",
    required "input_two",
    required "input_three",
    required "input_four"]
  rates := [.scalar, .control, .audio, .demand]
  flags := { pure := true }

def localBuf : Descriptor where
  name := "LocalBuf"
  description := "Synth-local buffer"
  category := .buffer
  inputs := [optional "channel_count" 1, optional "frame_count" 1]
  rates := [.scalar]

def maxLocalBufs : Descriptor where
  name := "MaxLocalBufs"
  description := "LocalBuf count"
  category := .buffer
  inputs := [optional "maximum" 0]
  rates := [.scalar]

def bufFrames : Descriptor where
  name := "BufFrames"
  description := "Buffer frame count"
  category := .buffer
  inputs := [required "buffer_id"]
  rates := [.scalar, .control]
  flags := { pure := true }

def pvCopy : Descriptor where
  name := "PV_Copy"
  description := "Copy an FFT frame"
  category := .spectral
  inputs := [required "pv_chain_a", required "pv_chain_b"]
  rates := [.control]
  flags := { widthFirst := true, pv := .copy }

/-- The descriptors every file can be read with. -/
def synthesized : Catalog :=
  [control, lagControl, trigControl, audioControl, binaryOpUGen, unaryOpUGen, mulAdd, sum3, sum4,
    localBuf, maxLocalBufs, bufFrames, pvCopy]

end SynthGraph.Catalog
