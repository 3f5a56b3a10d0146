import SynthGraph.Rate

/-!
# Signals

What constructors take and return: a constant, one output of a registered generator, or a vector of
signals, possibly nested, which drives multichannel expansion. `Signal.leaves` lists the scalars of
a signal from left to right.
-/

namespace SynthGraph

/-- One output of a generator. `scope` tells which builder registered it. -/
structure Outlet where
  scope : Nat
  ugen : Nat
  output : Nat
  rate : Rate
  deriving DecidableEq, Repr

inductive Signal where
  | constant (value : Single)
  | outlet (outlet : Outlet)
  | vector (items : List Signal)
  deriving Repr, Inhabited

namespace Signal

mutual

/-- The fastest rate among the leaves. -/
def rate : Signal → Rate
  | constant _ => .scalar
  | outlet p => p.rate
  | vector items => ratesJoin items

def ratesJoin : List Signal → Rate
  | [] => .scalar
  | s :: rest => s.rate.join (ratesJoin rest)

end

mutual

/-- The scalars of a signal, depth first. -/
def leaves : Signal → List Signal
  | vector items => allLeaves items
  | scalar => [scalar]

def allLeaves : List Signal → List Signal
  | [] => []
  | s :: rest => s.leaves ++ allLeaves rest

end

def asConstant : Signal → Option Single
  | constant value => some value
  | _ => none

def asOutlet : Signal → Option Outlet
  | outlet p => some p
  | _ => none

/-- The signal is a constant equal to `value` as a number. -/
def isConstant (s : Signal) (value : Single) : Bool := s.asConstant.any (·.numEq value)

def isVector : Signal → Bool
  | vector _ => true
  | _ => false

def isEmptyVector : Signal → Bool
  | vector [] => true
  | _ => false

/-- The number of elements of a vector, and one for a scalar. -/
def channelCount : Signal → Nat
  | vector items => items.length
  | _ => 1

/-- The number of elements of a vector, and zero for a scalar. -/
def width : Signal → Nat
  | vector items => items.length
  | _ => 0

/-- Element `index` of a vector, counted cyclically; a scalar serves every channel. -/
def channel (s : Signal) (index : Nat) : Signal :=
  match s with
  | vector items => items.getD (index % items.length) s
  | _ => s

/-- One signal stands for itself; any other number of them is a vector. -/
def collapse : List Signal → Signal
  | [s] => s
  | items => vector items

end Signal

end SynthGraph
