import SynthGraph.Descriptor

/-!
# Envelope generators

Envelopes, lines, and generators that free or pause their synth.
-/

namespace SynthGraph.Catalog

def envGen : Descriptor where
  name := "EnvGen"
  description := "Envelope generator"
  category := .envelope
  inputs := [
    optional "gate" 1,
    optional "level_scale" 1,
    optional "level_bias" 0,
    optional "time_scale" 1,
    optional "done_action" 0,
    { required "envelope" with variadic := true }]
  rates := [.audio, .control]
  flags := { doneFlag := true }

def iEnvGen : Descriptor where
  name := "IEnvGen"
  description := "Indexed envelope generator"
  category := .envelope
  inputs := [required "index", { required "envelope" with variadic := true }]
  rates := [.audio, .control]
  flags := { pure := true }

def linen : Descriptor where
  name := "Linen"
  description := "Linear attack, sustain, release envelope"
  category := .envelope
  inputs := [
    optional "gate" 1,
    optional "attack_time" 0.01,
    optional "sustain_level" 1,
    optional "release_time" 1,
    optional "done_action" 0]
  rates := [.control]
  flags := { doneFlag := true }

def line : Descriptor where
  name := "Line"
  description := "Linear ramp"
  category := .envelope
  inputs := [optional "start" 0, optional "stop" 1, optional "duration" 1, optional "done_action" 0]
  rates := [.audio, .control]
  flags := { doneFlag := true }

def xLine : Descriptor where
  name := "XLine"
  description := "Exponential ramp"
  category := .envelope
  inputs := [optional "start" 1, optional "stop" 2, optional "duration" 1, optional "done_action" 0]
  rates := [.audio, .control]
  flags := { doneFlag := true }

def freeSelf : Descriptor where
  name := "FreeSelf"
  description := "Free the synth on trigger"
  category := .envelope
  inputs := [required "trigger"]
  rates := [.control]

def pauseSelf : Descriptor where
  name := "PauseSelf"
  description := "Pause the synth on trigger"
  category := .envelope
  inputs := [required "trigger"]
  rates := [.control]

def done : Descriptor where
  name := "Done"
  description := "Done-flag monitor"
  category := .envelope
  inputs := [required "source"]
  rates := [.control]

def freeSelfWhenDone : Descriptor where
  name := "FreeSelfWhenDone"
  description := "Free the synth when the source is done"
  category := .envelope
  inputs := [required "source"]
  rates := [.control]

def detectSilence : Descriptor where
  name := "DetectSilence"
  description := "Silence detector"
  category := .envelope
  inputs := [
    required "source",
    optional "threshold" 0.0001,
    optional "time" 0.1,
    optional "done_action" 0]
  rates := [.audio, .control]

/-- The envelope generators in catalog order. -/
def envelopes : Catalog :=
  [envGen, iEnvGen, linen, line, xLine, freeSelf, pauseSelf, done, freeSelfWhenDone, detectSilence]

end SynthGraph.Catalog
