import SynthGraph.Single

/-!
# Operators

The unary and binary operators a signal can pass through. An operator's position in its table is
the special index of its generator, and its label is what a printed definition shows. `fold` is the
value of an operator on constants, where it has one that is finite.
-/

namespace SynthGraph

inductive BinaryOperator where
  | addition
  | subtraction
  | multiplication
  | integerDivision
  | floatDivision
  | modulo
  | equal
  | notEqual
  | lessThan
  | greaterThan
  | lessThanOrEqual
  | greaterThanOrEqual
  | minimum
  | maximum
  | bitwiseAnd
  | bitwiseOr
  | bitwiseXor
  | leastCommonMultiple
  | greatestCommonDivisor
  | round
  | roundUp
  | truncation
  | atan2
  | hypot
  | hypotx
  | power
  | shiftLeft
  | shiftRight
  | unsignedShift
  | fill
  | ring1
  | ring2
  | ring3
  | ring4
  | differenceOfSquares
  | sumOfSquares
  | squareOfSum
  | squareOfDifference
  | absoluteDifference
  | threshold
  | amclip
  | scaleNeg
  | clip2
  | excess
  | fold2
  | wrap2
  | firstArg
  | randRange
  | expRandRange
  deriving DecidableEq, Repr

inductive UnaryOperator where
  | negative
  | not
  | isNil
  | notNil
  | bitNot
  | absoluteValue
  | asFloat
  | asInt
  | ceiling
  | floor
  | fractionalPart
  | sign
  | squared
  | cubed
  | squareRoot
  | exponential
  | reciprocal
  | midiToHz
  | hzToMidi
  | semitonesToRatio
  | ratioToSemitones
  | dbToAmplitude
  | amplitudeToDb
  | octaveToHz
  | hzToOctave
  | log
  | log2
  | log10
  | sin
  | cos
  | tan
  | arcsin
  | arccos
  | arctan
  | sinh
  | cosh
  | tanh
  | rand
  | rand2
  | linRand
  | bilinRand
  | sum3Rand
  | distort
  | softclip
  | coin
  | digitValue
  | silence
  | thru
  | rectangleWindow
  | hanningWindow
  | welchWindow
  | triangleWindow
  | ramp
  | sCurve
  deriving DecidableEq, Repr

namespace BinaryOperator

/-- The operators by index, with their labels. -/
def table : List (BinaryOperator × String) := [
  (addition, "ADDITION"),
  (subtraction, "SUBTRACTION"),
  (multiplication, "MULTIPLICATION"),
  (integerDivision, "INTEGER_DIVISION"),
  (floatDivision, "FLOAT_DIVISION"),
  (modulo, "MODULO"),
  (equal, "EQUAL"),
  (notEqual, "NOT_EQUAL"),
  (lessThan, "LESS_THAN"),
  (greaterThan, "GREATER_THAN"),
  (lessThanOrEqual, "LESS_THAN_OR_EQUAL"),
  (greaterThanOrEqual, "GREATER_THAN_OR_EQUAL"),
  (minimum, "MINIMUM"),
  (maximum, "MAXIMUM"),
  (bitwiseAnd, "BITWISE_AND"),
  (bitwiseOr, "BITWISE_OR"),
  (bitwiseXor, "BITWISE_XOR"),
  (leastCommonMultiple, "LEAST_COMMON_MULTIPLE"),
  (greatestCommonDivisor, "GREATEST_COMMON_DIVISOR"),
  (round, "ROUND"),
  (roundUp, "ROUND_UP"),
  (truncation, "TRUNCATION"),
  (atan2, "ATAN2"),
  (hypot, "HYPOT"),
  (hypotx, "HYPOTX"),
  (power, "POWER"),
  (shiftLeft, "SHIFT_LEFT"),
  (shiftRight, "SHIFT_RIGHT"),
  (unsignedShift, "UNSIGNED_SHIFT"),
  (fill, "FILL"),
  (ring1, "RING1"),
  (ring2, "RING2"),
  (ring3, "RING3"),
  (ring4, "RING4"),
  (differenceOfSquares, "DIFFERENCE_OF_SQUARES"),
  (sumOfSquares, "SUM_OF_SQUARES"),
  (squareOfSum, "SQUARE_OF_SUM"),
  (squareOfDifference, "SQUARE_OF_DIFFERENCE"),
  (absoluteDifference, "ABSOLUTE_DIFFERENCE"),
  (threshold, "THRESHOLD"),
  (amclip, "AMCLIP"),
  (scaleNeg, "SCALE_NEG"),
  (clip2, "CLIP2"),
  (excess, "EXCESS"),
  (fold2, "FOLD2"),
  (wrap2, "WRAP2"),
  (firstArg, "FIRST_ARG"),
  (randRange, "RANDRANGE"),
  (expRandRange, "EXPRANDRANGE")]

def index (op : BinaryOperator) : Nat := table.findIdx (·.1 == op)

def ofIndex? (i : Nat) : Option BinaryOperator := table[i]?.map (·.1)

def label (op : BinaryOperator) : String := ((table.find? (·.1 == op)).map (·.2)).getD ""

def ofLabel? (label : String) : Option BinaryOperator :=
  (table.find? (·.2 == label)).map (·.1)

end BinaryOperator

namespace UnaryOperator

/-- The operators by index, with their labels. -/
def table : List (UnaryOperator × String) := [
  (negative, "NEGATIVE"),
  (not, "NOT"),
  (isNil, "IS_NIL"),
  (notNil, "NOT_NIL"),
  (bitNot, "BIT_NOT"),
  (absoluteValue, "ABSOLUTE_VALUE"),
  (asFloat, "AS_FLOAT"),
  (asInt, "AS_INT"),
  (ceiling, "CEILING"),
  (floor, "FLOOR"),
  (fractionalPart, "FRACTIONAL_PART"),
  (sign, "SIGN"),
  (squared, "SQUARED"),
  (cubed, "CUBED"),
  (squareRoot, "SQUARE_ROOT"),
  (exponential, "EXPONENTIAL"),
  (reciprocal, "RECIPROCAL"),
  (midiToHz, "MIDI_TO_HZ"),
  (hzToMidi, "HZ_TO_MIDI"),
  (semitonesToRatio, "SEMITONES_TO_RATIO"),
  (ratioToSemitones, "RATIO_TO_SEMITONES"),
  (dbToAmplitude, "DB_TO_AMPLITUDE"),
  (amplitudeToDb, "AMPLITUDE_TO_DB"),
  (octaveToHz, "OCTAVE_TO_HZ"),
  (hzToOctave, "HZ_TO_OCTAVE"),
  (log, "LOG"),
  (log2, "LOG2"),
  (log10, "LOG10"),
  (sin, "SIN"),
  (cos, "COS"),
  (tan, "TAN"),
  (arcsin, "ARCSIN"),
  (arccos, "ARCCOS"),
  (arctan, "ARCTAN"),
  (sinh, "SINH"),
  (cosh, "COSH"),
  (tanh, "TANH"),
  (rand, "RAND"),
  (rand2, "RAND2"),
  (linRand, "LINRAND"),
  (bilinRand, "BILINRAND"),
  (sum3Rand, "SUM3RAND"),
  (distort, "DISTORT"),
  (softclip, "SOFTCLIP"),
  (coin, "COIN"),
  (digitValue, "DIGIT_VALUE"),
  (silence, "SILENCE"),
  (thru, "THRU"),
  (rectangleWindow, "RECTANGLE_WINDOW"),
  (hanningWindow, "HANNING_WINDOW"),
  (welchWindow, "WELCH_WINDOW"),
  (triangleWindow, "TRIANGLE_WINDOW"),
  (ramp, "RAMP"),
  (sCurve, "S_CURVE")]

def index (op : UnaryOperator) : Nat := table.findIdx (·.1 == op)

def ofIndex? (i : Nat) : Option UnaryOperator := table[i]?.map (·.1)

def label (op : UnaryOperator) : String := ((table.find? (·.1 == op)).map (·.2)).getD ""

def ofLabel? (label : String) : Option UnaryOperator :=
  (table.find? (·.2 == label)).map (·.1)

end UnaryOperator

/-! ## Values on constants -/

/-- Truth as a number. -/
def truth (condition : Bool) : Float := if condition then 1 else 0

/-- The square root of `high * high + low * low` with one correction step. The root `h` of the
rounded squares is off by about `(h * h - high * high - low * low) / (2 * h)`; that excess is
expanded in the small distance of `h` from one of the legs, so that the large squares cancel before
they round. -/
def correctedRoot (high low : Float) : Float :=
  let h := (high * high + low * low).sqrt
  let excess :=
    if h ≤ 2 * low then
      let delta := h - low
      high * (2 * delta - high) + (delta - 2 * (high - low)) * delta
    else
      let delta := h - high
      2 * delta * (high - 2 * low) + ((4 * delta - low) * low + delta * delta)
  h - excess / (2 * h)

/-- `correctedRoot` of the legs scaled by `2 ^ k`, scaled back. -/
def scaledRoot (k : Int) (high low : Float) : Float :=
  (correctedRoot (high.scaleB k) (low.scaleB k)).scaleB (-k)

/-- The length of the hypotenuse. An infinite leg makes it infinite; otherwise a leg that is not a
number makes it none. A leg `2 ^ 54` times shorter than the other counts to first order only, and
legs whose squares would leave the range are scaled first. -/
def hypotenuse (a b : Float) : Float :=
  let high := if a.abs < b.abs then b.abs else a.abs
  let low := if a.abs < b.abs then a.abs else b.abs
  if a.isInf then a.abs
  else if b.isInf then b.abs
  else if a.isNaN || b.isNaN then a + b
  else if low.scaleB 54 ≤ high then high + low
  else if Float.scaleB 1 511 < high then scaledRoot (-600) high low
  else if low < Float.scaleB 1 (-459) then scaledRoot 600 high low
  else correctedRoot high low

/-- The lesser number; a not-a-number gives way to the other operand. -/
def lesser (a b : Float) : Float :=
  if a.isNaN then b else if b.isNaN then a else if b < a then b else a

/-- The greater number; a not-a-number gives way to the other operand. -/
def greater (a b : Float) : Float :=
  if a.isNaN then b else if b.isNaN then a else if a < b then b else a

namespace BinaryOperator

/-- The value on two numbers, before it is known to be finite. -/
def apply (op : BinaryOperator) (a b : Float) : Option Float :=
  match op with
  | addition => some (a + b)
  | subtraction => some (a - b)
  | multiplication => some (a * b)
  | floatDivision => if b != 0 then some (a / b) else none
  | modulo => if b != 0 then some (a - b * (a / b).floor) else none
  | equal => some (truth (a == b))
  | notEqual => some (truth (a != b))
  | lessThan => some (truth (a < b))
  | greaterThan => some (truth (b < a))
  | lessThanOrEqual => some (truth (a ≤ b))
  | greaterThanOrEqual => some (truth (b ≤ a))
  | minimum => some (lesser a b)
  | maximum => some (greater a b)
  | atan2 => some (a.atan2 b)
  | hypot => some (hypotenuse a b)
  | power => some (a.pow b)
  | differenceOfSquares => some (a * a - b * b)
  | sumOfSquares => some (a * a + b * b)
  | squareOfSum => some ((a + b) * (a + b))
  | squareOfDifference => some ((a - b) * (a - b))
  | absoluteDifference => some (a - b).abs
  | firstArg => some a
  | _ => none

/-- The finite value of the operator on two numbers, if it has one. -/
def fold (op : BinaryOperator) (a b : Float) : Option Float :=
  (op.apply a b).filter (·.isFinite)

/-- The operator on two constants: computed in double precision, rounded to single. -/
def foldConstants (op : BinaryOperator) (a b : Single) : Option Single :=
  (op.fold a.toFloat b.toFloat).map .ofFloat

end BinaryOperator

namespace UnaryOperator

/-- The value on a number, before it is known to be finite. -/
def apply (op : UnaryOperator) (a : Float) : Option Float :=
  match op with
  | negative => some (-a)
  | absoluteValue => some a.abs
  | ceiling => some a.ceil
  | floor => some a.floor
  | fractionalPart => some (a - a.floor)
  | sign => some (if 0 < a then 1 else if a < 0 then -1 else 0)
  | squared => some (a * a)
  | cubed => some (a * a * a)
  | squareRoot => if 0 ≤ a then some a.sqrt else none
  | exponential => some a.exp
  | reciprocal => if a != 0 then some (1 / a) else none
  | midiToHz => some (440 * ((a - 69) / 12).exp2)
  | hzToMidi => if 0 < a then some (12 * (a / 440).log2 + 69) else none
  | semitonesToRatio => some (a / 12).exp2
  | ratioToSemitones => if 0 < a then some (12 * a.log2) else none
  | dbToAmplitude => some (Float.pow 10 (a / 20))
  | amplitudeToDb => if 0 < a then some (20 * a.log10) else none
  | octaveToHz => some (440 * (a - 4.75).exp2)
  | hzToOctave => if 0 < a then some ((a / 440).log2 + 4.75) else none
  | log => if 0 < a then some a.log else none
  | log2 => if 0 < a then some a.log2 else none
  | log10 => if 0 < a then some a.log10 else none
  | sin => some a.sin
  | cos => some a.cos
  | tan => some a.tan
  | arcsin => if a.abs ≤ 1 then some a.asin else none
  | arccos => if a.abs ≤ 1 then some a.acos else none
  | arctan => some a.atan
  | sinh => some a.sinh
  | cosh => some a.cosh
  | tanh => some a.tanh
  | thru => some a
  | _ => none

/-- The finite value of the operator on a number, if it has one. -/
def fold (op : UnaryOperator) (a : Float) : Option Float :=
  (op.apply a).filter (·.isFinite)

/-- The operator on a constant: computed in double precision, rounded to single. -/
def foldConstant (op : UnaryOperator) (a : Single) : Option Single :=
  (op.fold a.toFloat).map .ofFloat

end UnaryOperator

end SynthGraph
