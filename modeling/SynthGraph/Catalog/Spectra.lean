import SynthGraph.Descriptor

/-!
# Spectra

Fourier transforms and the phase-vocoder generators between them. Each transforms its buffer in
place, so all are width first, and their roles tell the compiler which chains it must copy.
-/

namespace SynthGraph.Catalog

def fft : Descriptor where
  name := "FFT"
  description := "Fast Fourier transform"
  category := .spectral
  inputs := [
    required "buffer_id",
    required "source",
    optional "hop" 0.5,
    optional "window_type" 0,
    optional "active" 1,
    optional "window_size" 0]
  rates := [.control]
  flags := { widthFirst := true, pv := .fft }

def ifft : Descriptor where
  name := "IFFT"
  description := "Inverse fast Fourier transform"
  category := .spectral
  inputs := [required "pv_chain", optional "window_type" 0, optional "window_size" 0]
  rates := [.audio, .control]
  flags := { widthFirst := true }

def pvBinScramble : Descriptor where
  name := "PV_BinScramble"
  description := "Scramble bins"
  category := .spectral
  inputs := [required "pv_chain", optional "wipe" 0, optional "width" 0.2, optional "trigger" 0]
  rates := [.control]
  flags := { widthFirst := true, pv := .chain }

def pvBrickWall : Descriptor where
  name := "PV_BrickWall"
  description := "Spectral brick-wall filter"
  category := .spectral
  inputs := [required "pv_chain", optional "wipe" 0]
  rates := [.control]
  flags := { widthFirst := true, pv := .chain }

def pvMagAbove : Descriptor where
  name := "PV_MagAbove"
  description := "Magnitude gate"
  category := .spectral
  inputs := [required "pv_chain", optional "threshold" 0]
  rates := [.control]
  flags := { widthFirst := true, pv := .chain }

def pvMagFreeze : Descriptor where
  name := "PV_MagFreeze"
  description := "Freeze magnitudes"
  category := .spectral
  inputs := [required "pv_chain", optional "freeze" 0]
  rates := [.control]
  flags := { widthFirst := true, pv := .chain }

def pvRandComb : Descriptor where
  name := "PV_RandComb"
  description := "Random bin comb"
  category := .spectral
  inputs := [required "pv_chain", optional "wipe" 0, optional "trigger" 0]
  rates := [.control]
  flags := { widthFirst := true, pv := .chain }

def pvPhaseShift : Descriptor where
  name := "PV_PhaseShift"
  description := "Phase shift"
  category := .spectral
  inputs := [required "pv_chain", required "shift", optional "integrate" 0]
  rates := [.control]
  flags := { widthFirst := true, pv := .chain }

def pvMagMul : Descriptor where
  name := "PV_MagMul"
  description := "Multiply magnitudes"
  category := .spectral
  inputs := [required "pv_chain_a", required "pv_chain_b"]
  rates := [.control]
  flags := { widthFirst := true, pv := .chain }

def pvAdd : Descriptor where
  name := "PV_Add"
  description := "Add spectra"
  category := .spectral
  inputs := [required "pv_chain_a", required "pv_chain_b"]
  rates := [.control]
  flags := { widthFirst := true, pv := .chain }

def pvMul : Descriptor where
  name := "PV_Mul"
  description := "Multiply spectra"
  category := .spectral
  inputs := [required "pv_chain_a", required "pv_chain_b"]
  rates := [.control]
  flags := { widthFirst := true, pv := .chain }

/-- The spectral generators in catalog order. -/
def spectra : Catalog :=
  [fft, ifft, pvBinScramble, pvBrickWall, pvMagAbove, pvMagFreeze, pvRandComb, pvPhaseShift,
    pvMagMul, pvAdd, pvMul]

end SynthGraph.Catalog
