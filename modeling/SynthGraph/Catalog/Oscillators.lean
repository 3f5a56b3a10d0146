import SynthGraph.Descriptor

/-!
# Oscillators

Periodic generators. All are pure: equal inputs give equal signals.
-/

namespace SynthGraph.Catalog

def sinOsc : Descriptor where
  name := "SinOsc"
  description := "Sine oscillator"
  category := .oscillator
  inputs := [optional "frequency" 440, optional "phase" 0]
  rates := [.audio, .control]
  flags := { pure := true }

def saw : Descriptor where
  name := "Saw"
  description := "Band-limited sawtooth oscillator"
  category := .oscillator
  inputs := [optional "frequency" 440]
  rates := [.audio, .control]
  flags := { pure := true }

def pulse : Descriptor where
  name := "Pulse"
  description := "Band-limited pulse oscillator"
  category := .oscillator
  inputs := [optional "frequency" 440, optional "width" 0.5]
  rates := [.audio, .control]
  flags := { pure := true }

def blip : Descriptor where
  name := "Blip"
  description := "Band-limited impulse oscillator"
  category := .oscillator
  inputs := [optional "frequency" 440, optional "harmonic_count" 200]
  rates := [.audio, .control]
  flags := { pure := true }

def impulse : Descriptor where
  name := "Impulse"
  description := "Impulse oscillator"
  category := .oscillator
  inputs := [optional "frequency" 440, optional "phase" 0]
  rates := [.audio, .control]
  flags := { pure := true }

def lfSaw : Descriptor where
  name := "LFSaw"
  description := "Low-frequency sawtooth oscillator"
  category := .oscillator
  inputs := [optional "frequency" 440, optional "initial_phase" 0]
  rates := [.audio, .control]
  flags := { pure := true }

def lfTri : Descriptor where
  name := "LFTri"
  description := "Low-frequency triangle oscillator"
  category := .oscillator
  inputs := [optional "frequency" 440, optional "initial_phase" 0]
  rates := [.audio, .control]
  flags := { pure := true }

def lfCub : Descriptor where
  name := "LFCub"
  description := "Low-frequency cubic oscillator"
  category := .oscillator
  inputs := [optional "frequency" 440, optional "initial_phase" 0]
  rates := [.audio, .control]
  flags := { pure := true }

def lfPar : Descriptor where
  name := "LFPar"
  description := "Low-frequency parabolic oscillator"
  category := .oscillator
  inputs := [optional "frequency" 440, optional "initial_phase" 0]
  rates := [.audio, .control]
  flags := { pure := true }

def lfPulse : Descriptor where
  name := "LFPulse"
  description := "Low-frequency pulse oscillator"
  category := .oscillator
  inputs := [optional "frequency" 440, optional "initial_phase" 0, optional "width" 0.5]
  rates := [.audio, .control]
  flags := { pure := true }

def varSaw : Descriptor where
  name := "VarSaw"
  description := "Variable-width sawtooth oscillator"
  category := .oscillator
  inputs := [optional "frequency" 440, optional "initial_phase" 0, optional "width" 0.5]
  rates := [.audio, .control]
  flags := { pure := true }

def syncSaw : Descriptor where
  name := "SyncSaw"
  description := "Hard-sync sawtooth oscillator"
  category := .oscillator
  inputs := [optional "sync_frequency" 440, optional "saw_frequency" 440]
  rates := [.audio, .control]
  flags := { pure := true }

/-- The oscillators in catalog order. -/
def oscillators : Catalog :=
  [sinOsc, saw, pulse, blip, impulse, lfSaw, lfTri, lfCub, lfPar, lfPulse, varSaw, syncSaw]

end SynthGraph.Catalog
