import SynthGraph.Descriptor

/-!
# Filters

Filters, lags and decays.
-/

namespace SynthGraph.Catalog

def lpf : Descriptor where
  name := "LPF"
  description := "Lowpass filter"
  category := .filter
  inputs := [required "source", optional "frequency" 440]
  rates := [.audio, .control]
  flags := { pure := true }

def hpf : Descriptor where
  name := "HPF"
  description := "Highpass filter"
  category := .filter
  inputs := [required "source", optional "frequency" 440]
  rates := [.audio, .control]
  flags := { pure := true }

def bpf : Descriptor where
  name := "BPF"
  description := "Bandpass filter"
  category := .filter
  inputs := [required "source", optional "frequency" 440, optional "reciprocal_of_q" 1]
  rates := [.audio, .control]
  flags := { pure := true }

def brf : Descriptor where
  name := "BRF"
  description := "Band-reject filter"
  category := .filter
  inputs := [required "source", optional "frequency" 440, optional "reciprocal_of_q" 1]
  rates := [.audio, .control]
  flags := { pure := true }

def rlpf : Descriptor where
  name := "RLPF"
  description := "Resonant lowpass filter"
  category := .filter
  inputs := [required "source", optional "frequency" 440, optional "reciprocal_of_q" 1]
  rates := [.audio, .control]
  flags := { pure := true }

def rhpf : Descriptor where
  name := "RHPF"
  description := "Resonant highpass filter"
  category := .filter
  inputs := [required "source", optional "frequency" 440, optional "reciprocal_of_q" 1]
  rates := [.audio, .control]
  flags := { pure := true }

def lag : Descriptor where
  name := "Lag"
  description := "Exponential lag"
  category := .filter
  inputs := [required "source", optional "lag_time" 0.1]
  rates := [.audio, .control]
  flags := { pure := true }

def lag2 : Descriptor where
  name := "Lag2"
  description := "Cascaded exponential lag"
  category := .filter
  inputs := [required "source", optional "lag_time" 0.1]
  rates := [.audio, .control]
  flags := { pure := true }

def decay : Descriptor where
  name := "Decay"
  description := "Exponential decay"
  category := .filter
  inputs := [required "source", optional "decay_time" 1]
  rates := [.audio, .control]
  flags := { pure := true }

def decay2 : Descriptor where
  name := "Decay2"
  description := "Exponential attack and decay"
  category := .filter
  inputs := [required "source", optional "attack_time" 0.01, optional "decay_time" 1]
  rates := [.audio, .control]
  flags := { pure := true }

def leakDC : Descriptor where
  name := "LeakDC"
  description := "DC blocking filter"
  category := .filter
  inputs := [required "source", optional "coefficient" 0.995]
  rates := [.audio, .control]
  flags := { pure := true }

def onePole : Descriptor where
  name := "OnePole"
  description := "One-pole filter"
  category := .filter
  inputs := [required "source", optional "coefficient" 0.5]
  rates := [.audio, .control]
  flags := { pure := true }

def integrator : Descriptor where
  name := "Integrator"
  description := "Leaky integrator"
  category := .filter
  inputs := [required "source", optional "coefficient" 1]
  rates := [.audio, .control]
  flags := { pure := true }

/-- The filters in catalog order. -/
def filters : Catalog :=
  [lpf, hpf, bpf, brf, rlpf, rhpf, lag, lag2, decay, decay2, leakDC, onePole, integrator]

end SynthGraph.Catalog
