import SynthGraph.Rate

/-!
# Graph nodes

A node never owns its inputs: an input is a constant or names an output of another node by its
position in the arena, so compilation passes only ever exchange references.
-/

namespace SynthGraph

/-- A synth parameter: a name, one default per channel, and how it is updated. -/
structure Parameter where
  name : String
  values : List Single
  rate : ParameterRate := .control
  lag : Option Single := none
  deriving DecidableEq, Repr, Inhabited

namespace Parameter

/-- The number of channels. -/
def size (p : Parameter) : Nat := p.values.length

def lagOrZero (p : Parameter) : Single := p.lag.getD 0

/-- The parameter glides to new values. -/
def isLagged (p : Parameter) : Bool := p.lag.any fun lag => !lag.numEq 0

end Parameter

/-- A reference to an output of a node. -/
structure NodeRef where
  ugen : Nat
  output : Nat
  deriving DecidableEq, Repr

inductive Input where
  | constant (value : Single)
  | node (ref : NodeRef)
  deriving DecidableEq, Repr

namespace Input

def constant? : Input → Option Single
  | constant value => some value
  | node _ => none

def node? : Input → Option NodeRef
  | constant _ => none
  | node ref => some ref

/-- Exchange the reference, if there is one. -/
def mapNode (f : NodeRef → NodeRef) : Input → Input
  | constant value => constant value
  | node ref => node (f ref)

end Input

/-- The name of an input; an element of a variadic input is numbered. -/
structure InputKey where
  name : String
  element : Option Nat := none
  deriving DecidableEq, Repr

namespace InputKey

def text (key : InputKey) : String :=
  match key.element with
  | some i => s!"{key.name}[{i}]"
  | none => key.name

end InputKey

/-- The part a generator plays in a phase-vocoder chain, which transforms its buffer in place. -/
inductive PvRole where
  | none
  | fft
  | chain
  | copy
  deriving DecidableEq, Repr, Inhabited

/-- What the compiler knows about a class of generators. -/
structure Flags where
  /-- Equal inputs give equal outputs, and an unused one can go. -/
  pure : Bool := false
  doneFlag : Bool := false
  /-- Everything listed later has to run later. -/
  widthFirst : Bool := false
  input : Bool := false
  output : Bool := false
  /-- Reads what its own consumers wrote in the block before. -/
  feedbackReader : Bool := false
  control : Bool := false
  pv : PvRole := .none
  deriving DecidableEq, Repr, Inhabited

/-- The node is in a phase-vocoder chain. -/
def Flags.isPv (flags : Flags) : Bool := flags.pv != .none

/-- What a node stands for. -/
inductive Role where
  | generator
  /-- A placeholder for a parameter, until controls are made. -/
  | parameter (p : Parameter)
  /-- A control that outputs the channels of its parameters in order. -/
  | control (parameters : List Parameter)
  deriving DecidableEq, Repr, Inhabited

structure Node where
  className : String
  rate : Rate
  special : UInt16 := 0
  inputs : List Input := []
  keys : List InputKey := []
  outputs : Nat := 1
  flags : Flags := {}
  role : Role := .generator
  deriving DecidableEq, Repr, Inhabited

namespace Node

def isParameter (n : Node) : Bool :=
  match n.role with
  | .parameter _ => true
  | _ => false

/-- The parameter a placeholder stands for. -/
def parameter? (n : Node) : Option Parameter :=
  match n.role with
  | .parameter p => some p
  | _ => none

/-- The parameters a control outputs. -/
def parameters (n : Node) : List Parameter :=
  match n.role with
  | .control parameters => parameters
  | _ => []

/-- The input whose key has the given name and is not an element of a variadic input. -/
def inputNamed? (n : Node) (name : String) : Option Input :=
  match n.keys.findIdx? fun key => key.element.isNone && key.name == name with
  | some i => n.inputs[i]?
  | none => none

def mapRefs (n : Node) (f : NodeRef → NodeRef) : Node :=
  { n with inputs := n.inputs.map (·.mapNode f) }

/-- The references among the inputs. -/
def refs (n : Node) : List NodeRef := n.inputs.filterMap Input.node?

end Node

end SynthGraph
