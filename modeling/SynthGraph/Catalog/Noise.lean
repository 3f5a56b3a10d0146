import SynthGraph.Descriptor

/-!
# Noise

Noise sources and random values. None is pure: each one draws values of its own.
-/

namespace SynthGraph.Catalog

def whiteNoise : Descriptor where
  name := "WhiteNoise"
  description := "White noise"
  category := .noise
  inputs := []
  rates := [.audio, .control]

def pinkNoise : Descriptor where
  name := "PinkNoise"
  description := "Pink noise"
  category := .noise
  inputs := []
  rates := [.audio, .control]

def brownNoise : Descriptor where
  name := "BrownNoise"
  description := "Brown noise"
  category := .noise
  inputs := []
  rates := [.audio, .control]

def clipNoise : Descriptor where
  name := "ClipNoise"
  description := "Clipped noise"
  category := .noise
  inputs := []
  rates := [.audio, .control]

def grayNoise : Descriptor where
  name := "GrayNoise"
  description := "Gray noise"
  category := .noise
  inputs := []
  rates := [.audio, .control]

def dust : Descriptor where
  name := "Dust"
  description := "Random unipolar impulses"
  category := .noise
  inputs := [optional "density" 0]
  rates := [.audio, .control]

def dust2 : Descriptor where
  name := "Dust2"
  description := "Random bipolar impulses"
  category := .noise
  inputs := [optional "density" 0]
  rates := [.audio, .control]

def lfNoise0 : Descriptor where
  name := "LFNoise0"
  description := "Sample-and-hold noise"
  category := .noise
  inputs := [optional "frequency" 500]
  rates := [.audio, .control]

def lfNoise1 : Descriptor where
  name := "LFNoise1"
  description := "Ramp noise"
  category := .noise
  inputs := [optional "frequency" 500]
  rates := [.audio, .control]

def lfNoise2 : Descriptor where
  name := "LFNoise2"
  description := "Quadratic noise"
  category := .noise
  inputs := [optional "frequency" 500]
  rates := [.audio, .control]

def rand : Descriptor where
  name := "Rand"
  description := "Uniform random value"
  category := .noise
  inputs := [optional "minimum" 0, optional "maximum" 1]
  rates := [.scalar]

def expRand : Descriptor where
  name := "ExpRand"
  description := "Exponential random value"
  category := .noise
  inputs := [optional "minimum" 0, optional "maximum" 1]
  rates := [.scalar]

def iRand : Descriptor where
  name := "IRand"
  description := "Integer random value"
  category := .noise
  inputs := [optional "minimum" 0, optional "maximum" 127]
  rates := [.scalar]

/-- The noise generators in catalog order. -/
def noise : Catalog :=
  [whiteNoise, pinkNoise, brownNoise, clipNoise, grayNoise, dust, dust2, lfNoise0, lfNoise1,
    lfNoise2, rand, expRand, iRand]

end SynthGraph.Catalog
