import SynthGraph.Rate
import SynthGraph.Single.Decimal

/-!
# Faults

Everything that can go wrong when a graph is built, compiled, written or read. A `Fault` holds the
cause; `Fault.kind` classifies it and `Fault.message` words it.
-/

namespace SynthGraph

/-- Why a rate is refused. -/
inductive RateClash where
  /-- The generator does not run at this rate. -/
  | unsupported (rate : Rate)
  /-- An input at rate `source` may not feed a generator at rate `rate`. -/
  | input (name : String) (source rate : Rate)
  deriving DecidableEq, Repr

/-- Why a value cannot be used for an input. -/
inductive Rejection where
  | noValues
  | noSuchUGen
  | indexOutOfRange
  | notSingleChannel
  | tooManySlots
  | missingConstant (value : Single)
  deriving DecidableEq, Repr

/-- Why an envelope is inconsistent. -/
inductive EnvelopeFlaw where
  | fewAmplitudes (count : Nat)
  | durationCount (amplitudes durations : Nat)
  | noSegments
  deriving DecidableEq, Repr

/-- What is wrong with the bytes of a definition file. -/
inductive Defect where
  | tooManyDefinitions
  | truncated (what : String)
  | notText (what : String)
  | countTooLarge (what : String) (count : Nat)
  | missingHeader
  | version (found : Nat)
  | slotOutOfRange (parameter : String) (slot count : Nat)
  | rate (found : Nat) (className : String)
  | constantIndex (index : Nat) (className : String)
  | ugenIndex (className : String) (index count : Nat)
  | outputRates (className : String)
  | variants (count : Nat)
  | outputIndex (reader output source count : Nat)
  | trailing (count : Nat)
  | notSingle (count : Nat)
  deriving DecidableEq, Repr

/-- The cause of a failed operation. -/
inductive Fault where
  | emptyInput (ugen input : String)
  | rateMismatch (ugen : String) (clash : RateClash)
  | duplicateParameter (name : String)
  | cyclicGraph (classNames : List String)
  | malformed (offset : Nat) (defect : Defect)
  | noActiveBuilder
  | foreignNode (ugen : String)
  | missingInput (ugen input : String)
  | unknownInput (ugen input : String)
  | invalidInput (ugen input : String) (reason : Rejection)
  | invalidEnvelope (flaw : EnvelopeFlaw)
  | nameTooLong (name : String)
  | invalidFileName (name : String)
  | emptyGraph
  | unreadableFile
  | unwritableFile
  | uncreatableDirectory
  | optionsText
  deriving DecidableEq, Repr

namespace RateClash

def message (ugen : String) : RateClash → String
  | unsupported rate => s!"{rate.token} is not a valid rate"
  | input name source rate =>
    s!"input '{name}' is {source.token} but {ugen} runs at {rate.token}"

end RateClash

namespace Rejection

def message : Rejection → String
  | noValues => "parameter has no values"
  | noSuchUGen => "no such UGen"
  | indexOutOfRange => "input index out of range"
  | notSingleChannel => "expected a single channel"
  | tooManySlots => "too many parameter slots"
  | missingConstant value => s!"{value.plain} missing from the constant table"

end Rejection

namespace EnvelopeFlaw

def message : EnvelopeFlaw → String
  | fewAmplitudes count => s!"need at least 2 amplitudes, got {count}"
  | durationCount amplitudes durations =>
    s!"{amplitudes} amplitudes need {amplitudes - 1} durations, got {durations}"
  | noSegments => "need at least one segment"

end EnvelopeFlaw

namespace Defect

def message : Defect → String
  | tooManyDefinitions => "more than 65535 SynthDefs in one file"
  | truncated what => s!"unexpected end of data reading {what}"
  | notText what => s!"{what} is not valid UTF-8"
  | countTooLarge what count => s!"{what} {count} exceeds the remaining data"
  | missingHeader => "missing SCgf header"
  | version found => s!"unsupported version {found}, expected 2"
  | slotOutOfRange parameter slot count =>
    s!"parameter '{parameter}' starts at slot {slot} of {count}"
  | rate found className => s!"invalid rate {found} for {className}"
  | constantIndex index className => s!"constant index {index} out of range for {className}"
  | ugenIndex className index count => s!"{className} references ugen {index} of {count}"
  | outputRates className => s!"{className} output rates exceed the data"
  | variants count => s!"{count} variants are not supported"
  | outputIndex reader output source count =>
    s!"ugen {reader} reads output {output} of ugen {source} which has {count}"
  | trailing count => s!"{count} trailing bytes"
  | notSingle count => s!"expected one SynthDef, found {count}"

end Defect

namespace Fault

/-- The classes of faults a caller can tell apart. -/
inductive Kind where
  | emptyInput
  | rateMismatch
  | duplicateParameter
  | cyclicGraph
  | malformedBinary
  | noActiveBuilder
  | foreignNode
  | missingInput
  | unknownInput
  | invalidInput
  | invalidEnvelope
  | nameTooLong
  | invalidFileName
  | emptyGraph
  | unreadable
  | unwritable
  | uncreatable
  | optionsText
  deriving DecidableEq, Repr

def kind : Fault → Kind
  | emptyInput .. => .emptyInput
  | rateMismatch .. => .rateMismatch
  | duplicateParameter .. => .duplicateParameter
  | cyclicGraph .. => .cyclicGraph
  | malformed .. => .malformedBinary
  | noActiveBuilder => .noActiveBuilder
  | foreignNode .. => .foreignNode
  | missingInput .. => .missingInput
  | unknownInput .. => .unknownInput
  | invalidInput .. => .invalidInput
  | invalidEnvelope .. => .invalidEnvelope
  | nameTooLong .. => .nameTooLong
  | invalidFileName .. => .invalidFileName
  | emptyGraph => .emptyGraph
  | unreadableFile => .unreadable
  | unwritableFile => .unwritable
  | uncreatableDirectory => .uncreatable
  | optionsText => .optionsText

def message : Fault → String
  | emptyInput ugen input => s!"empty input '{input}' for {ugen}"
  | rateMismatch ugen clash => s!"rate mismatch for {ugen}: {clash.message ugen}"
  | duplicateParameter name => s!"duplicate parameter '{name}' with a conflicting definition"
  | cyclicGraph classNames => "cyclic graph through: " ++ ", ".intercalate classNames
  | malformed offset defect => s!"malformed SynthDef data at byte {offset}: {defect.message}"
  | noActiveBuilder => "no active SynthDef builder on this thread"
  | foreignNode ugen => s!"input to {ugen} comes from a different builder"
  | missingInput ugen input => s!"missing required input '{input}' for {ugen}"
  | unknownInput ugen input => s!"unknown input '{input}' for {ugen}"
  | invalidInput ugen input reason => s!"invalid input '{input}' for {ugen}: {reason.message}"
  | invalidEnvelope flaw => s!"invalid envelope: {flaw.message}"
  | nameTooLong name =>
    s!"name '{name}' is {name.utf8ByteSize} bytes long, at most 255 are allowed"
  | invalidFileName name => s!"SynthDef name '{name}' is not a valid file name"
  | emptyGraph => "SynthDef graph is empty"
  | unreadableFile => "failed to read file"
  | unwritableFile => "failed to write file"
  | uncreatableDirectory => "failed to create directory"
  | optionsText => "failed to parse TOML"

end Fault

end SynthGraph
