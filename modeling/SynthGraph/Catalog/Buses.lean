import SynthGraph.Descriptor

/-!
# Buses

Bus reads and writes. Writers have no outputs; `LocalIn` reads what `LocalOut` wrote one block
earlier.
-/

namespace SynthGraph.Catalog

def out : Descriptor where
  name := "Out"
  description := "Bus write"
  category := .inputOutput
  inputs := [
    optional "bus" 0,
    { required "source" with variadic := true, check := .audioWhenAudio }]
  rates := [.audio, .control]
  outputs := .fixed 0
  flags := { output := true }

def replaceOut : Descriptor where
  name := "ReplaceOut"
  description := "Bus overwrite"
  category := .inputOutput
  inputs := [
    optional "bus" 0,
    { required "source" with variadic := true, check := .audioWhenAudio }]
  rates := [.audio, .control]
  outputs := .fixed 0
  flags := { output := true }

def offsetOut : Descriptor where
  name := "OffsetOut"
  description := "Sample-offset bus write"
  category := .inputOutput
  inputs := [
    optional "bus" 0,
    { required "source" with variadic := true, check := .audioWhenAudio }]
  rates := [.audio, .control]
  outputs := .fixed 0
  flags := { output := true }

def xOut : Descriptor where
  name := "XOut"
  description := "Crossfading bus write"
  category := .inputOutput
  inputs := [
    optional "bus" 0,
    optional "crossfade" 0,
    { required "source" with variadic := true, check := .audioWhenAudio }]
  rates := [.audio, .control]
  outputs := .fixed 0
  flags := { output := true }

def busIn : Descriptor where
  name := "In"
  description := "Bus read"
  category := .inputOutput
  inputs := [optional "bus" 0]
  rates := [.audio, .control]
  outputs := .channels 1
  flags := { input := true }

def inFeedback : Descriptor where
  name := "InFeedback"
  description := "Bus read with feedback"
  category := .inputOutput
  inputs := [optional "bus" 0]
  rates := [.audio]
  outputs := .channels 1
  flags := { input := true }

def localIn : Descriptor where
  name := "LocalIn"
  description := "Local feedback bus read"
  category := .inputOutput
  inputs := [{ optional "default" 0 with variadic := true }]
  rates := [.audio, .control]
  outputs := .channels 1
  flags := { input := true, feedbackReader := true }

def localOut : Descriptor where
  name := "LocalOut"
  description := "Local feedback bus write"
  category := .inputOutput
  inputs := [{ required "source" with variadic := true }]
  rates := [.audio, .control]
  outputs := .fixed 0
  flags := { output := true }

/-- The bus generators in catalog order. -/
def buses : Catalog :=
  [out, replaceOut, offsetOut, xOut, busIn, inFeedback, localIn, localOut]

end SynthGraph.Catalog
