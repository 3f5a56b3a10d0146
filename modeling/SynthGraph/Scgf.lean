/-!
# Definition files

A file holds the letters `SCgf`, the version 2, a count and that many definitions. All numbers are
big-endian; a text is one byte with its size and the bytes of its UTF-8 form. A definition is its
name, the constants, one value per parameter slot, the name table with the first slot of each
parameter, the generators, and the number of variants, which is zero. A generator is its class, its
rate, the numbers of inputs and outputs, the special index, the inputs, and a rate per output. An
input is a pair: a generator and its output, or `constantMark` and a position in the constants.
-/

namespace SynthGraph

abbrev Bytes := List UInt8

/-- The digest by which contents are named. Nothing but its size matters here. -/
class Digest where
  digest : Bytes → Bytes
  length_digest : ∀ content, (digest content).length = 32

namespace Scgf

/-- `SCgf`. -/
def magic : Bytes := [0x53, 0x43, 0x67, 0x66]

def version : Nat := 2

/-- Stands for the generator in an input that is a constant. -/
def constantMark : Nat := 0xFFFFFFFF

/-! ## Numbers -/

def word8 (n : Nat) : Bytes := [n.toUInt8]

def word16 (n : Nat) : Bytes := [(n / 256).toUInt8, n.toUInt8]

def word32 (n : Nat) : Bytes :=
  [(n / 16777216).toUInt8, (n / 65536).toUInt8, (n / 256).toUInt8, n.toUInt8]

/-- The number written in the bytes, most significant first. -/
def number (bytes : Bytes) : Nat := bytes.foldl (fun n byte => 256 * n + byte.toNat) 0

end Scgf

end SynthGraph
