import SynthGraph.Descriptor

/-!
# Delays

Delay lines, combs and allpass delays; the last letter tells no, linear and cubic interpolation.
-/

namespace SynthGraph.Catalog

def delayN : Descriptor where
  name := "DelayN"
  description := "Delay line"
  category := .delay
  inputs := [required "source", optional "maximum_delay_time" 0.2, optional "delay_time" 0.2]
  rates := [.audio, .control]
  flags := { pure := true }

def delayL : Descriptor where
  name := "DelayL"
  description := "Linear delay line"
  category := .delay
  inputs := [required "source", optional "maximum_delay_time" 0.2, optional "delay_time" 0.2]
  rates := [.audio, .control]
  flags := { pure := true }

def delayC : Descriptor where
  name := "DelayC"
  description := "Cubic delay line"
  category := .delay
  inputs := [required "source", optional "maximum_delay_time" 0.2, optional "delay_time" 0.2]
  rates := [.audio, .control]
  flags := { pure := true }

def combN : Descriptor where
  name := "CombN"
  description := "Comb delay"
  category := .delay
  inputs := [
    required "source",
    optional "maximum_delay_time" 0.2,
    optional "delay_time" 0.2,
    optional "decay_time" 1]
  rates := [.audio, .control]
  flags := { pure := true }

def combL : Descriptor where
  name := "CombL"
  description := "Linear comb delay"
  category := .delay
  inputs := [
    required "source",
    optional "maximum_delay_time" 0.2,
    optional "delay_time" 0.2,
    optional "decay_time" 1]
  rates := [.audio, .control]
  flags := { pure := true }

def combC : Descriptor where
  name := "CombC"
  description := "Cubic comb delay"
  category := .delay
  inputs := [
    required "source",
    optional "maximum_delay_time" 0.2,
    optional "delay_time" 0.2,
    optional "decay_time" 1]
  rates := [.audio, .control]
  flags := { pure := true }

def allpassN : Descriptor where
  name := "AllpassN"
  description := "Allpass delay"
  category := .delay
  inputs := [
    required "source",
    optional "maximum_delay_time" 0.2,
    optional "delay_time" 0.2,
    optional "decay_time" 1]
  rates := [.audio, .control]
  flags := { pure := true }

def allpassL : Descriptor where
  name := "AllpassL"
  description := "Linear allpass delay"
  category := .delay
  inputs := [
    required "source",
    optional "maximum_delay_time" 0.2,
    optional "delay_time" 0.2,
    optional "decay_time" 1]
  rates := [.audio, .control]
  flags := { pure := true }

def allpassC : Descriptor where
  name := "AllpassC"
  description := "Cubic allpass delay"
  category := .delay
  inputs := [
    required "source",
    optional "maximum_delay_time" 0.2,
    optional "delay_time" 0.2,
    optional "decay_time" 1]
  rates := [.audio, .control]
  flags := { pure := true }

/-- The delays in catalog order. -/
def delays : Catalog :=
  [delayN, delayL, delayC, combN, combL, combC, allpassN, allpassL, allpassC]

end SynthGraph.Catalog
