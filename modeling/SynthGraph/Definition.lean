import SynthGraph.Node

/-!
# Definitions

A compiled synth definition: generators in execution order that refer to each other by position,
the constants in the order of their first use, and the parameters in the order of their slots.
-/

namespace SynthGraph

structure Definition where
  /-- Absent if the definition goes by the digest of its content. -/
  name : Option String
  ugens : List Node
  constants : List Single
  /-- The parameters in slot order, each with its first slot. -/
  parameters : List (Parameter × Nat)
  /-- Positions in `parameters`, in the order of the name table. -/
  nameOrder : List Nat
  deriving DecidableEq, Repr, Inhabited

namespace Definition

/-- The positions of the parameters sorted by name. -/
def alphabetical (parameters : List (Parameter × Nat)) : List Nat :=
  (parameters.zipIdx.mergeSort fun a b => a.1.1.name ≤ b.1.1.name).map (·.2)

/-- A definition whose name table is alphabetical. -/
def ofParts (name : Option String) (ugens : List Node) (constants : List Single)
    (parameters : List (Parameter × Nat)) : Definition where
  name := name
  ugens := ugens
  constants := constants
  parameters := parameters
  nameOrder := alphabetical parameters

/-- The position of a value in the constant table. -/
def constantIndex? (d : Definition) (value : Single) : Option Nat :=
  d.constants.findIdx? (·.sameConstant value)

/-- The parameter of the given name, with its first slot. -/
def parameter? (d : Definition) (name : String) : Option (Parameter × Nat) :=
  d.parameters.find? (·.1.name == name)

/-- The parameters in the order of the name table, each with its first slot. -/
def indexedParameters (d : Definition) : List (Parameter × Nat) :=
  d.nameOrder.filterMap (d.parameters[·]?)

/-- The number of parameter slots. -/
def slotCount (d : Definition) : Nat := (d.parameters.flatMap (·.1.values)).length

def controls (d : Definition) : List Node := d.ugens.filter (·.flags.control)

/-- The synth can be released through a parameter named `gate`. -/
def hasGate (d : Definition) : Bool := (d.parameter? "gate").isSome

end Definition

/-! ## Agreement

Equality of definitions with numbers compared as numbers: a not-a-number agrees with nothing and
the two zeros agree. -/

/-- Lists of one length whose elements agree in pairs. -/
def agreeBy {α : Type} (agree : α → α → Bool) : List α → List α → Bool
  | [], [] => true
  | a :: as, b :: bs => agree a b && agreeBy agree as bs
  | _, _ => false

def Input.agree : Input → Input → Bool
  | constant a, constant b => a.numEq b
  | node a, node b => a == b
  | _, _ => false

def Parameter.agree (p q : Parameter) : Bool :=
  p.name == q.name && agreeBy Single.numEq p.values q.values && p.rate == q.rate &&
    match p.lag, q.lag with
    | none, none => true
    | some a, some b => a.numEq b
    | _, _ => false

def Role.agree : Role → Role → Bool
  | generator, generator => true
  | parameter p, parameter q => p.agree q
  | control ps, control qs => agreeBy Parameter.agree ps qs
  | _, _ => false

def Node.agree (a b : Node) : Bool :=
  a.className == b.className && a.rate == b.rate && a.special == b.special &&
    agreeBy Input.agree a.inputs b.inputs && a.keys == b.keys && a.outputs == b.outputs &&
    a.flags == b.flags && a.role.agree b.role

def Definition.agree (a b : Definition) : Bool :=
  a.name == b.name && agreeBy Node.agree a.ugens b.ugens &&
    agreeBy Single.numEq a.constants b.constants &&
    agreeBy (fun p q => p.1.agree q.1 && p.2 == q.2) a.parameters b.parameters &&
    a.nameOrder == b.nameOrder

end SynthGraph
