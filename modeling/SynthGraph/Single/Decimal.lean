import SynthGraph.Single

/-!
# Decimal text of single-precision numbers

`Single.shortest` selects the fewest decimal digits that read back to the same binary32 number, and
among those the nearest; an exact tie goes away from zero. `Single.plain` writes them positionally,
and `Single.text` is the form used in printed definitions: whole numbers below `10 ^ 16` are written
out exactly with one decimal place, everything else with its shortest digits.
-/

namespace SynthGraph

/-- The decimal number `digits * 10 ^ exp`. -/
structure Decimal where
  digits : Nat
  exp : Int
  deriving DecidableEq, Repr

namespace Decimal

/-- Compare `a * 10 ^ i` with `n * 2 ^ j`. -/
def compareScaled (a : Nat) (i : Int) (n : Nat) (j : Int) : Ordering :=
  compare (a * Nat.pow 10 i.toNat <<< (-j).toNat) (n * Nat.pow 10 (-i).toNat <<< j.toNat)

/-- Move the trailing zeros of the digits into the exponent; `fuel` bounds their number. -/
def trim : Nat → Decimal → Decimal
  | 0, d => d
  | fuel + 1, d =>
    if d.digits ≠ 0 ∧ d.digits % 10 = 0 then trim fuel ⟨d.digits / 10, d.exp + 1⟩ else d

/-- Positional notation, without an exponent. -/
def positional (d : Decimal) : String :=
  let digits := (Nat.toDigits 10 d.digits)
  if 0 ≤ d.exp then String.ofList (digits ++ List.replicate d.exp.toNat '0')
  else
    let places := (-d.exp).toNat
    let padded := List.replicate (places + 1 - digits.length) '0' ++ digits
    let cut := padded.length - places
    String.ofList (padded.take cut ++ '.' :: padded.drop cut)

end Decimal

namespace Single

/-- The significand of a finite number, with the hidden bit. -/
def significand (s : Single) : Nat :=
  if s.exponent = 0 then s.fraction else 0x800000 + s.fraction

/-- The power of two that scales the significand. -/
def scale (s : Single) : Int :=
  if s.exponent = 0 then -149 else (s.exponent : Int) - 150

/-- Just above a power of two the gap below is half the gap above. -/
def narrowBelow (s : Single) : Bool := s.fraction == 0 && s.exponent > 1

/-- The reals that round to the magnitude of `s` contain `d`. -/
def readsBack (s : Single) (d : Decimal) : Bool :=
  let m := s.significand
  let low := if s.narrowBelow then 4 * m - 1 else 4 * m - 2
  let high := 4 * m + 2
  let inclusive := m % 2 == 0
  let atLow := Decimal.compareScaled d.digits d.exp low (s.scale - 2)
  let atHigh := Decimal.compareScaled d.digits d.exp high (s.scale - 2)
  (atLow == .gt || inclusive && atLow == .eq) && (atHigh == .lt || inclusive && atHigh == .eq)

/-- The magnitude of `s` rounded down to a multiple of `10 ^ exp`, in units of `10 ^ exp`. -/
def floorAt (s : Single) (exp : Int) : Nat :=
  (s.significand * Nat.pow 10 (-exp).toNat <<< s.scale.toNat) /
    (Nat.pow 10 exp.toNat <<< (-s.scale).toNat)

/-- The neighbours of `s` on the grid of `10 ^ exp` that read back, the nearer one first chosen. -/
def onGrid (s : Single) (exp : Int) : Option Decimal :=
  let below := s.floorAt exp
  let lower : Decimal := ⟨below, exp⟩
  let upper : Decimal := ⟨below + 1, exp⟩
  match s.readsBack lower, s.readsBack upper with
  | true, true =>
    -- twice the value against the sum of the two neighbours
    match Decimal.compareScaled (2 * below + 1) exp (2 * s.significand) s.scale with
    | .gt => some lower
    | _ => some upper
  | true, false => some lower
  | false, true => some upper
  | false, false => none

/-- The least `k` with the magnitude of `s` below `10 ^ k`, searched upwards from `-45`. -/
def leadingPower (s : Single) : Int :=
  let candidates := (List.range 86).map fun (i : Nat) => (i : Int) - 45
  (candidates.find? fun k => Decimal.compareScaled 1 k s.significand s.scale == .gt).getD 40

/-- The fewest digits that read back, the nearest of those. -/
def shortest (s : Single) : Decimal :=
  if s.isZero then ⟨0, 0⟩
  else
    let k := s.leadingPower
    match (List.range 9).findSome? fun n => s.onGrid (k - (n + 1 : Nat)) with
    | some d => d.trim 10
    | none => ⟨s.significand * Nat.pow 5 (-s.scale).toNat <<< s.scale.toNat, min s.scale 0⟩

def signText (s : Single) : String := if s.isNegative then "-" else ""

/-- Positional text with the shortest digits. -/
def plain (s : Single) : String :=
  if s.isNaN then "NaN"
  else if s.isInfinite then s.signText ++ "inf"
  else s.signText ++ s.shortest.positional

/-- The magnitude of `s` as a natural number, if it is one. -/
def whole? (s : Single) : Option Nat :=
  if 0 ≤ s.scale then some (s.significand <<< s.scale.toNat)
  else
    let unit := 1 <<< (-s.scale).toNat
    if s.significand % unit = 0 then some (s.significand / unit) else none

/-- The text of a number in a printed definition. -/
def text (s : Single) : String :=
  if s.isNaN then "nan"
  else if s.isInfinite then s.signText ++ "inf"
  else
    match s.whole? with
    | some n => if n < 10000000000000000 then s.signText ++ toString n ++ ".0" else s.plain
    | none => s.plain

end Single

end SynthGraph
