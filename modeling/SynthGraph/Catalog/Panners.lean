import SynthGraph.Descriptor

/-!
# Panners

Stereo and multichannel panners.
-/

namespace SynthGraph.Catalog

def pan2 : Descriptor where
  name := "Pan2"
  description := "Equal-power stereo panner"
  category := .panning
  inputs := [required "source", optional "position" 0, optional "level" 1]
  rates := [.audio, .control]
  outputs := .fixed 2

def linPan2 : Descriptor where
  name := "LinPan2"
  description := "Linear stereo panner"
  category := .panning
  inputs := [required "source", optional "position" 0, optional "level" 1]
  rates := [.audio, .control]
  outputs := .fixed 2

def balance2 : Descriptor where
  name := "Balance2"
  description := "Stereo balance"
  category := .panning
  inputs := [required "left", required "right", optional "position" 0, optional "level" 1]
  rates := [.audio, .control]
  outputs := .fixed 2

def pan4 : Descriptor where
  name := "Pan4"
  description := "Quad panner"
  category := .panning
  inputs := [required "source", optional "x_position" 0, optional "y_position" 0, optional "gain" 1]
  rates := [.audio, .control]
  outputs := .fixed 4

def panAz : Descriptor where
  name := "PanAz"
  description := "Azimuth panner"
  category := .panning
  inputs := [
    required "source",
    optional "position" 0,
    optional "amplitude" 1,
    optional "width" 2,
    optional "orientation" 0.5]
  rates := [.audio, .control]
  outputs := .channels 2

/-- The panners in catalog order. -/
def panners : Catalog :=
  [pan2, linPan2, balance2, pan4, panAz]

end SynthGraph.Catalog
