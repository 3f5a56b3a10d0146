import SynthGraph.Single

/-!
# Rates

How often a unit generator computes its outputs (`Rate`), how a synth parameter is updated
(`ParameterRate`), and what an envelope does to its synth when it finishes (`DoneAction`).
-/

namespace SynthGraph

/-- The calculation rate of a unit generator, from slowest to fastest. -/
inductive Rate where
  | scalar
  | control
  | audio
  | demand
  deriving DecidableEq, Repr, Inhabited

namespace Rate

def all : List Rate := [scalar, control, audio, demand]

/-- The rate's number in a definition file. -/
def index : Rate → Nat
  | scalar => 0
  | control => 1
  | audio => 2
  | demand => 3

def ofIndex? (i : Nat) : Option Rate := all[i]?

/-- The two-letter suffix that names a rate. -/
def token : Rate → String
  | scalar => "ir"
  | control => "kr"
  | audio => "ar"
  | demand => "dr"

def ofToken? (token : String) : Option Rate := all.find? (·.token == token)

/-- The faster of two rates. -/
def join (a b : Rate) : Rate := if a.index ≤ b.index then b else a

/-- The fastest of the rates; `scalar` if there are none. -/
def promote (rates : List Rate) : Rate := rates.foldl join scalar

end Rate

/-- How a parameter is updated while its synth runs. -/
inductive ParameterRate where
  | scalar
  | trigger
  | audio
  | control
  deriving DecidableEq, Repr, Inhabited

namespace ParameterRate

/-- The rate groups in the order in which their controls are emitted. -/
def all : List ParameterRate := [scalar, trigger, audio, control]

def index : ParameterRate → Nat
  | scalar => 0
  | trigger => 1
  | audio => 2
  | control => 3

def name : ParameterRate → String
  | scalar => "scalar"
  | trigger => "trigger"
  | audio => "audio"
  | control => "control"

def ofName? (name : String) : Option ParameterRate := all.find? (·.name == name)

/-- The rate at which the control of such a parameter runs. -/
def calculation : ParameterRate → Rate
  | scalar => .scalar
  | trigger => .control
  | audio => .audio
  | control => .control

/-- Rates in emission order. -/
def sort (rates : List ParameterRate) : List ParameterRate :=
  rates.mergeSort fun a b => a.index ≤ b.index

end ParameterRate

/-- What a finished envelope does to the synth around it. -/
inductive DoneAction where
  | nothing
  | pauseSynth
  | freeSynth
  | freeSynthAndPrecedingNode
  | freeSynthAndFollowingNode
  | freeSynthAndFreeAllInPrecedingGroup
  | freeSynthAndFreeAllInFollowingGroup
  | freeSynthAndAllPrecedingNodesInGroup
  | freeSynthAndAllFollowingNodesInGroup
  | freeSynthAndPausePrecedingNode
  | freeSynthAndPauseFollowingNode
  | freeSynthAndDeepFreePrecedingNode
  | freeSynthAndDeepFreeFollowingNode
  | freeSynthAndAllSiblingNodes
  | freeSynthAndEnclosingGroup
  deriving DecidableEq, Repr

namespace DoneAction

/-- The actions in the order of their codes. -/
def all : List DoneAction :=
  [nothing, pauseSynth, freeSynth, freeSynthAndPrecedingNode, freeSynthAndFollowingNode,
    freeSynthAndFreeAllInPrecedingGroup, freeSynthAndFreeAllInFollowingGroup,
    freeSynthAndAllPrecedingNodesInGroup, freeSynthAndAllFollowingNodesInGroup,
    freeSynthAndPausePrecedingNode, freeSynthAndPauseFollowingNode,
    freeSynthAndDeepFreePrecedingNode, freeSynthAndDeepFreeFollowingNode,
    freeSynthAndAllSiblingNodes, freeSynthAndEnclosingGroup]

def name : DoneAction → String
  | nothing => "Nothing"
  | pauseSynth => "PauseSynth"
  | freeSynth => "FreeSynth"
  | freeSynthAndPrecedingNode => "FreeSynthAndPrecedingNode"
  | freeSynthAndFollowingNode => "FreeSynthAndFollowingNode"
  | freeSynthAndFreeAllInPrecedingGroup => "FreeSynthAndFreeAllInPrecedingGroup"
  | freeSynthAndFreeAllInFollowingGroup => "FreeSynthAndFreeAllInFollowingGroup"
  | freeSynthAndAllPrecedingNodesInGroup => "FreeSynthAndAllPrecedingNodesInGroup"
  | freeSynthAndAllFollowingNodesInGroup => "FreeSynthAndAllFollowingNodesInGroup"
  | freeSynthAndPausePrecedingNode => "FreeSynthAndPausePrecedingNode"
  | freeSynthAndPauseFollowingNode => "FreeSynthAndPauseFollowingNode"
  | freeSynthAndDeepFreePrecedingNode => "FreeSynthAndDeepFreePrecedingNode"
  | freeSynthAndDeepFreeFollowingNode => "FreeSynthAndDeepFreeFollowingNode"
  | freeSynthAndAllSiblingNodes => "FreeSynthAndAllSiblingNodes"
  | freeSynthAndEnclosingGroup => "FreeSynthAndEnclosingGroup"

def ofName? (name : String) : Option DoneAction := all.find? (·.name == name)

/-- The number that stands for the action as an input. -/
def value (action : DoneAction) : Single := .ofNat (all.idxOf action)

end DoneAction

end SynthGraph
