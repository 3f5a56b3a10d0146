/-!
# Single-precision numbers

Every number that flows through a synth definition is a binary32 value. `Single` holds the bit
pattern itself, so the payload of a not-a-number and the sign of a zero are part of the value and
reach the written file unchanged. Two equalities matter besides equality of bits: `numEq`, the
comparison of numbers, and `sameConstant`, the comparison a constant table makes.

Conversions are exact integer arithmetic followed by one rounding (`ofScaled`); sums, products and
quotients are those of binary64, rounded once more, which gives the binary32 result.
-/

namespace SynthGraph

/-- A binary32 number, held as its bit pattern. -/
structure Single where
  bits : UInt32
  deriving DecidableEq, Repr, Inhabited

namespace Single

/-! ## Fields of the bit pattern -/

def isNegative (s : Single) : Bool := s.bits &&& 0x80000000 != 0

/-- The biased exponent. -/
def exponent (s : Single) : Nat := ((s.bits >>> 23) &&& 0xFF).toNat

/-- The 23 stored bits of the significand. -/
def fraction (s : Single) : Nat := (s.bits &&& 0x7FFFFF).toNat

def isNaN (s : Single) : Bool := s.exponent == 255 && s.fraction != 0

def isInfinite (s : Single) : Bool := s.exponent == 255 && s.fraction == 0

def isZero (s : Single) : Bool := s.bits &&& 0x7FFFFFFF == 0

/-! ## Equalities -/

/-- Comparison of numbers: a not-a-number differs from itself, and the two zeros are equal. -/
def numEq (a b : Single) : Bool :=
  !a.isNaN && !b.isNaN && (a.bits == b.bits || a.isZero && b.isZero)

/-- Comparison of table entries: equal as numbers, or equal bit for bit. -/
def sameConstant (a b : Single) : Bool := a.numEq b || a.bits == b.bits

/-- The bit pattern with both zeros written alike. -/
def key (s : Single) : UInt32 := if s.isZero then 0 else s.bits

/-! ## Rounding -/

/-- `num / 2 ^ shift`, rounded to nearest with ties to even. -/
def roundShift (num shift : Nat) : Nat :=
  let quotient := num >>> shift
  let rest := num - quotient <<< shift
  let half := 1 <<< (shift - 1)
  if shift = 0 then num
  else if rest < half || rest == half && quotient % 2 == 0 then quotient
  else quotient + 1

/-- The bits below the sign of `m * 2 ^ q` rounded to nearest, ties to even; what is too large
becomes infinite. A value `n * 2 ^ t` with `n ≤ 2 ^ 24` and least exponent `t ≥ -149` has the
bits `(t + 149) * 2 ^ 23 + n`, carries included. -/
def magnitude (m : Nat) (q : Int) : Nat :=
  if m = 0 then 0
  else
    let lead : Int := (m.log2 : Int) + q
    let least : Int := max (lead - 23) (-149)
    let n := if least ≤ q then m <<< (q - least).toNat else roundShift m (least - q).toNat
    min ((least + 149).toNat <<< 23 + n) 0x7F800000

def withSign (negative : Bool) (low : UInt32) : Single :=
  ⟨if negative then low ||| 0x80000000 else low⟩

/-- `m * 2 ^ q`, negated if `negative`, as the nearest binary32 number. -/
def ofScaled (negative : Bool) (m : Nat) (q : Int) : Single :=
  withSign negative (magnitude m q).toUInt32

def ofNat (n : Nat) : Single := ofScaled false n 0

def ofInt (n : Int) : Single := ofScaled (n < 0) n.natAbs 0

instance {n : Nat} : OfNat Single n := ⟨ofNat n⟩

/-- The nearest binary32 number to `num / den`: a quotient of more than thirty bits, followed by one
bit that tells whether the division left a rest. -/
def ofRatio (num den : Nat) : Single :=
  let shift := 32 + den.log2
  let scaled := num <<< shift
  let sticky := if scaled % den = 0 then 0 else 1
  ofScaled false (2 * (scaled / den) + sticky) (-(shift + 1 : Nat))

instance : OfScientific Single where
  ofScientific m negative e :=
    if negative then ofRatio m (Nat.pow 10 e) else ofNat (m * Nat.pow 10 e)

/-- The nearest binary32 number to the binary64 number with the given bits. A not-a-number keeps
its sign and the leading bits of its payload and becomes quiet. -/
def ofDouble (bits : UInt64) : Single :=
  let negative := bits >>> 63 != 0
  let exponent := ((bits >>> 52) &&& 0x7FF).toNat
  let fraction := bits &&& 0xFFFFFFFFFFFFF
  if exponent = 2047 then
    if fraction = 0 then withSign negative 0x7F800000
    else withSign negative ((0x7FC00000 : UInt32) ||| (fraction >>> 29).toUInt32)
  else if exponent = 0 then ofScaled negative fraction.toNat (-1074)
  else ofScaled negative (0x10000000000000 + fraction.toNat) ((exponent : Int) - 1075)

/-- The bits of the same number in binary64. -/
def toDouble (s : Single) : UInt64 :=
  let sign : UInt64 := if s.isNegative then 0x8000000000000000 else 0
  let fraction := s.fraction
  if s.exponent = 255 then
    sign ||| (0x7FF0000000000000 : UInt64) ||| fraction.toUInt64 <<< (29 : UInt64)
  else if s.exponent = 0 then
    if fraction = 0 then sign
    else
      -- a subnormal `fraction * 2 ^ (-149)` is normal in binary64
      let lead := fraction.log2
      let biased := (lead + 874).toUInt64
      let low := (fraction - 1 <<< lead).toUInt64 <<< (52 - lead).toUInt64
      sign ||| biased <<< (52 : UInt64) ||| low
  else
    sign ||| (s.exponent + 896).toUInt64 <<< (52 : UInt64) ||| fraction.toUInt64 <<< (29 : UInt64)

def toFloat (s : Single) : Float := Float.ofBits s.toDouble

def ofFloat (x : Float) : Single := ofDouble x.toBits

/-! ## Arithmetic -/

/-- The quiet form of a not-a-number. -/
def quiet (s : Single) : Single := ⟨s.bits ||| 0x00400000⟩

/-- A binary operation in binary64 rounded to binary32. A not-a-number operand is handed on, the
left one first; an operation without a value gives the negative quiet pattern. -/
def lift (op : Float → Float → Float) (a b : Single) : Single :=
  if a.isNaN then a.quiet
  else if b.isNaN then b.quiet
  else
    let r := op a.toFloat b.toFloat
    if r.isNaN then ⟨0xFFC00000⟩ else ofFloat r

def add (a b : Single) : Single := lift (· + ·) a b

def mul (a b : Single) : Single := lift (· * ·) a b

def div (a b : Single) : Single := lift (· / ·) a b

instance : Add Single := ⟨add⟩

instance : Mul Single := ⟨mul⟩

instance : Div Single := ⟨div⟩

def neg (s : Single) : Single := ⟨s.bits ^^^ 0x80000000⟩

instance : Neg Single := ⟨neg⟩

/-- The sum from left to right, starting at negative zero. -/
def sum (values : List Single) : Single := values.foldl (· + ·) (-0)

end Single

end SynthGraph
