import SynthGraph.Builder
import SynthGraph.Catalog.Synthesized
import SynthGraph.Chunk
import SynthGraph.Operator

/-!
# Arithmetic on signals

Operators first try to get by without a node: constants fold, and an identity such as `x * 1` or
`x + 0` gives back a signal that exists. What is left becomes an operator, a fused multiply-add or a
sum of three or four.

Each operator is defined on scalars (`…Scalar`) and applied to vectors channel by channel, shorter
ones being taken cyclically (`perChannel`).
-/

namespace SynthGraph

namespace Signal

theorem sizeOf_channel_le (s : Signal) (i : Nat) : sizeOf (s.channel i) ≤ sizeOf s := by
  unfold channel
  split
  · rename_i items
    simp only [List.getD_eq_getElem?_getD]
    cases hi : items[i % items.length]? with
    | none => simp
    | some t =>
      have := List.sizeOf_lt_of_mem (List.mem_of_getElem? hi)
      simp only [Option.getD_some, vector.sizeOf_spec]
      omega
  · exact Nat.le_refl _

theorem sizeOf_channel_lt {s : Signal} (h : 0 < s.width) (i : Nat) :
    sizeOf (s.channel i) < sizeOf s := by
  unfold width at h
  unfold channel
  split
  · rename_i items
    have hi : i % items.length < items.length := Nat.mod_lt _ h
    have := List.sizeOf_lt_of_mem (List.getElem_mem hi)
    simp only [List.getD_eq_getElem?_getD, List.getElem?_eq_getElem hi, Option.getD_some,
      vector.sizeOf_spec]
    omega
  · simp_all

end Signal

namespace Operands

/-- The number of channels, zero if all operands are scalars. -/
def width (operands : List Signal) : Nat := (operands.map Signal.width).foldr max 0

/-- Channel `i` of every operand. -/
def channel (operands : List Signal) (i : Nat) : List Signal := operands.map (·.channel i)

theorem sizeOf_channel_le (operands : List Signal) (i : Nat) :
    sizeOf (channel operands i) ≤ sizeOf operands := by
  induction operands with
  | nil => simp [channel]
  | cons s rest ih =>
    have := s.sizeOf_channel_le i
    simp only [channel, List.map_cons, List.cons.sizeOf_spec] at ih ⊢
    omega

theorem sizeOf_channel_lt {operands : List Signal} (h : width operands ≠ 0) (i : Nat) :
    sizeOf (channel operands i) < sizeOf operands := by
  induction operands with
  | nil => simp [width] at h
  | cons s rest ih =>
    have hs := s.sizeOf_channel_le i
    have hr := sizeOf_channel_le rest i
    simp only [channel, List.map_cons, List.cons.sizeOf_spec] at hr ih ⊢
    by_cases hw : 0 < s.width
    · have := Signal.sizeOf_channel_lt hw i
      omega
    · have := ih (by simp only [width, List.map_cons, List.foldr_cons] at h ⊢; omega)
      omega

end Operands

namespace Build

/-- Apply `scalar` to every channel of the operands, keeping the nesting in the result. It is given
as many scalars as there are operands. -/
def perChannel (ugen : String) (scalar : List Signal → Build Signal) (operands : List Signal) :
    Build Signal :=
  if operands.any Signal.isEmptyVector then throw (.emptyInput ugen "operand")
  else if _h : Operands.width operands = 0 then scalar operands
  else do
    let results ← (List.range (Operands.width operands)).mapM fun i =>
      perChannel ugen scalar (Operands.channel operands i)
    return .vector results
termination_by sizeOf operands
decreasing_by exact Operands.sizeOf_channel_lt _h i

/-! ## Operators on scalars -/

def unaryScalar (op : UnaryOperator) (x : Signal) : Build Signal :=
  match x.asConstant.bind op.foldConstant with
  | some value => return .constant value
  | none => register {
      descriptor := Catalog.unaryOpUGen, rate := x.rate
      args := [("source", x)], special := op.index.toUInt16 }

def negScalar (x : Signal) : Build Signal := unaryScalar .negative x

/-- A signal that an identity of the operator gives, if one applies. -/
def identity? (op : BinaryOperator) (x y : Signal) : Option (Build Signal) :=
  match op with
  | .multiplication =>
    if x.isConstant 0 || y.isConstant 0 then some (return .constant 0)
    else if x.isConstant 1 then some (return y)
    else if x.isConstant (-1) then some (negScalar y)
    else if y.isConstant 1 then some (return x)
    else if y.isConstant (-1) then some (negScalar x)
    else none
  | .addition =>
    if x.isConstant 0 then some (return y)
    else if y.isConstant 0 then some (return x)
    else none
  | .subtraction =>
    if x.isConstant 0 then some (negScalar y)
    else if y.isConstant 0 then some (return x)
    else none
  | .floatDivision =>
    if y.isConstant 1 then some (return x)
    else if y.isConstant (-1) then some (negScalar x)
    else none
  | _ => none

/-- The value of the operator if both operands are constants and it has one. -/
def folded? (op : BinaryOperator) (x y : Signal) : Option Single := do
  let a ← x.asConstant
  let b ← y.asConstant
  op.foldConstants a b

def binaryScalar (op : BinaryOperator) (x y : Signal) : Build Signal :=
  match folded? op x y with
  | some value => return .constant value
  | none =>
    match identity? op x y with
    | some result => result
    | none => register {
        descriptor := Catalog.binaryOpUGen, rate := x.rate.join y.rate
        args := [("left", x), ("right", y)], special := op.index.toUInt16 }

def addScalar (x y : Signal) : Build Signal := binaryScalar .addition x y

/-- A fused multiply-add can take `source` as its first input. -/
def fusable (source multiplier addend : Signal) : Bool :=
  match source.rate with
  | .audio => true
  | .control =>
    multiplier.rate.index ≤ Rate.control.index && addend.rate.index ≤ Rate.control.index
  | _ => false

def fuse (source multiplier addend : Signal) : Build Signal :=
  register {
    descriptor := Catalog.mulAdd
    rate := .promote [source.rate, multiplier.rate, addend.rate]
    args := [("source", source), ("multiplier", multiplier), ("addend", addend)] }

def mulAddScalar (source multiplier addend : Signal) : Build Signal :=
  if multiplier.isConstant 0 then return addend
  else if multiplier.isConstant 1 && addend.isConstant 0 then return source
  else if multiplier.isConstant (-1) && addend.isConstant 0 then negScalar source
  else if addend.isConstant 0 then binaryScalar .multiplication source multiplier
  else if multiplier.isConstant (-1) then binaryScalar .subtraction addend source
  else if multiplier.isConstant 1 then addScalar source addend
  else if fusable source multiplier addend then fuse source multiplier addend
  else if fusable multiplier source addend then fuse multiplier source addend
  else do
    let product ← binaryScalar .multiplication source multiplier
    addScalar product addend

/-- The faster signals first, otherwise in their order. -/
def byRate (signals : List Signal) : List Signal :=
  signals.mergeSort fun a b => b.rate.index ≤ a.rate.index

/-- A sum of the signals, which are as many as `names`. -/
def sumOf (descriptor : Descriptor) (names : List String) (signals : List Signal) : Build Signal :=
  register {
    descriptor, rate := .promote (signals.map Signal.rate), args := names.zip (byRate signals) }

def sum3Scalar (x y z : Signal) : Build Signal :=
  if z.isConstant 0 then addScalar x y
  else if y.isConstant 0 then addScalar x z
  else if x.isConstant 0 then addScalar y z
  else sumOf Catalog.sum3 ["input_one", "input_two", "input_three"] [x, y, z]

def sum4Scalar (x y z w : Signal) : Build Signal :=
  if x.isConstant 0 then sum3Scalar y z w
  else if y.isConstant 0 then sum3Scalar x z w
  else if z.isConstant 0 then sum3Scalar x y w
  else if w.isConstant 0 then sum3Scalar x y z
  else
    sumOf Catalog.sum4 ["input_one", "input_two", "input_three", "input_four"] [x, y, z, w]

/-! ## Operators on signals -/

def unary (op : UnaryOperator) (x : Signal) : Build Signal :=
  perChannel "UnaryOpUGen" (fun | [x] => unaryScalar op x | _ => return x) [x]

def binary (op : BinaryOperator) (x y : Signal) : Build Signal :=
  perChannel "BinaryOpUGen" (fun | [x, y] => binaryScalar op x y | _ => return x) [x, y]

def neg (x : Signal) : Build Signal := unary .negative x

def mulAdd (source multiplier addend : Signal) : Build Signal :=
  perChannel "MulAdd" (fun | [x, y, z] => mulAddScalar x y z | _ => return source)
    [source, multiplier, addend]

def sum3 (x y z : Signal) : Build Signal :=
  perChannel "Sum3" (fun | [x, y, z] => sum3Scalar x y z | _ => return x) [x, y, z]

def sum4 (x y z w : Signal) : Build Signal :=
  perChannel "Sum4" (fun | [x, y, z, w] => sum4Scalar x y z w | _ => return x) [x, y, z, w]

/-! ## Mixing -/

/-- Sum the signals four by four; what is left over is a smaller sum. -/
def mixRound : List Signal → Build (List Signal)
  | x :: y :: z :: w :: rest => do
    let s ← sum4Scalar x y z w
    let more ← mixRound rest
    return s :: more
  | [x, y, z] => return [← sum3Scalar x y z]
  | [x, y] => return [← addScalar x y]
  | [x] => return [x]
  | [] => return []

/-- Repeat rounds until one signal is left; a round leaves at most half of several signals, so
`fuel` never runs out when it starts at their number. -/
def mixRounds : Nat → List Signal → Build Signal
  | 0, signals => return .collapse signals
  | fuel + 1, signals => do
    match ← mixRound signals with
    | [s] => return s
    | more => mixRounds fuel more

/-- The sum of all leaves as one channel. -/
def mix (sources : Signal) : Build Signal :=
  if sources.leaves.isEmpty then throw (.emptyInput "Mix" "sources")
  else mixRounds sources.leaves.length sources.leaves

/-- The columns that all rows reach, from left to right. -/
def columns {α : Type} (rows : List (List α)) : List (List α) :=
  let width := ((rows.map List.length).min?).getD 0
  (List.range width).map fun column => rows.filterMap (·[column]?)

/-- Cut the leaves into frames of `channelCount` and mix the frames channel by channel. -/
def mixChannels (sources : Signal) (channelCount : Nat) : Build Signal :=
  if sources.leaves.isEmpty || channelCount == 0 then throw (.emptyInput "Mix" "sources")
  else do
    let mixes ← (columns (chunks channelCount sources.leaves)).mapM fun column =>
      mix (.vector column)
    return .vector mixes

end Build

end SynthGraph
