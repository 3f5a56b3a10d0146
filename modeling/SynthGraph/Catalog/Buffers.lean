import SynthGraph.Descriptor

/-!
# Buffers

Buffer playback, recording and queries.
-/

namespace SynthGraph.Catalog

def playBuf : Descriptor where
  name := "PlayBuf"
  description := "Buffer playback"
  category := .buffer
  inputs := [
    required "buffer_id",
    optional "rate" 1,
    optional "trigger" 1,
    optional "start_position" 0,
    optional "loop" 0,
    optional "done_action" 0]
  rates := [.audio, .control]
  outputs := .channels 1
  flags := { doneFlag := true }

def bufRd : Descriptor where
  name := "BufRd"
  description := "Buffer reader"
  category := .buffer
  inputs := [
    required "buffer_id",
    optional "phase" 0,
    optional "loop" 1,
    optional "interpolation" 2]
  rates := [.audio, .control]
  outputs := .channels 1

def recordBuf : Descriptor where
  name := "RecordBuf"
  description := "Buffer recorder"
  category := .buffer
  inputs := [
    required "buffer_id",
    optional "offset" 0,
    optional "record_level" 1,
    optional "preexisting_level" 0,
    optional "run" 1,
    optional "loop" 1,
    optional "trigger" 1,
    optional "done_action" 0,
    { required "source" with variadic := true }]
  rates := [.audio, .control]
  flags := { doneFlag := true }

def bufDur : Descriptor where
  name := "BufDur"
  description := "Buffer duration"
  category := .buffer
  inputs := [required "buffer_id"]
  rates := [.scalar, .control]
  flags := { pure := true }

def bufRateScale : Descriptor where
  name := "BufRateScale"
  description := "Buffer rate scale"
  category := .buffer
  inputs := [required "buffer_id"]
  rates := [.scalar, .control]
  flags := { pure := true }

def bufSampleRate : Descriptor where
  name := "BufSampleRate"
  description := "Buffer sample rate"
  category := .buffer
  inputs := [required "buffer_id"]
  rates := [.scalar, .control]
  flags := { pure := true }

/-- The buffer generators in catalog order. -/
def buffers : Catalog :=
  [playBuf, bufRd, recordBuf, bufDur, bufRateScale, bufSampleRate]

end SynthGraph.Catalog
