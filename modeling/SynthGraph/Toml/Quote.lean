/-!
# Writing TOML strings

A text goes between plain quotes if nothing in it needs an escape, else between apostrophes, else
over several lines between triple quotes or triple apostrophes, and only if none of these holds it
is written with escapes.
-/

namespace SynthGraph.Toml

/-- What decides how a text can be quoted. -/
structure Features where
  /-- The longest run of apostrophes. -/
  apostrophes : Nat := 0
  /-- The longest run of quotes. -/
  quotes : Nat := 0
  backslash : Bool := false
  newline : Bool := false
  /-- A control character other than the tab and the line feed. -/
  control : Bool := false
  deriving DecidableEq, Repr

/-- The longest run of a character, where `current` of them stand right before the list. -/
def longestRun (mark : Char) (current : Nat) : List Char → Nat
  | [] => current
  | c :: rest =>
    if c = mark then longestRun mark (current + 1) rest
    else max current (longestRun mark 0 rest)

def isControl (c : Char) : Bool := c.toNat < 0x20 || c.toNat == 0x7F

def Features.of (text : List Char) : Features where
  apostrophes := longestRun '\x27' 0 text
  quotes := longestRun '\x22' 0 text
  backslash := text.contains '\x5c'
  newline := text.contains '\n'
  control := text.any fun c => isControl c && c != '\t' && c != '\n'

/-- The escape of a character in a text between quotes, if it needs one. -/
def escapeOf (multiline : Bool) (c : Char) : Option (List Char) :=
  match c with
  | '\x08' => some ['\x5c', 'b']
  | '\t' => some ['\x5c', 't']
  | '\n' => if multiline then none else some ['\x5c', 'n']
  | '\x0c' => some ['\x5c', 'f']
  | '\r' => some ['\x5c', 'r']
  | '\x5c' => some ['\x5c', '\x5c']
  | _ =>
    if isControl c then
      let digit (n : Nat) : Char := (Nat.digitChar n).toUpper
      some ['\x5c', 'u', '0', '0', digit (c.toNat / 16), digit (c.toNat % 16)]
    else none

/-- The text between quotes. At most two quotes in a row stand as they are if it goes over several
lines, and none otherwise; `row` of them stand right before the list. -/
def escaped (multiline : Bool) (row : Nat) : List Char → List Char
  | [] => []
  | c :: rest =>
    if c = '\x22' then
      if multiline ∧ row < 2 then c :: escaped multiline (row + 1) rest
      else '\x5c' :: c :: escaped multiline 0 rest
    else
      match escapeOf multiline c with
      | some sequence => sequence ++ escaped multiline 0 rest
      | none => c :: escaped multiline 0 rest

/-- The text between three marks; a line end is put first if it goes over several lines. -/
def triple (mark : Char) (newline : Bool) (body : List Char) : List Char :=
  let marks := [mark, mark, mark]
  marks ++ (if newline then ['\n'] else []) ++ body ++ marks

def quotedChars (text : List Char) : List Char :=
  let f := Features.of text
  let basic := '\x22' :: escaped false 0 text ++ ['\x22']
  let basicLines := triple '\x22' f.newline (escaped true 0 text)
  if !f.control && !f.backslash && f.quotes == 0 && !f.newline then basic
  else if !f.control && f.apostrophes == 0 && !f.newline then '\x27' :: text ++ ['\x27']
  else if !f.control && !f.backslash && f.quotes ≤ 2 then basicLines
  else if !f.control && f.apostrophes ≤ 2 then triple '\x27' f.newline text
  else if f.newline then basicLines
  else basic

/-- The text as a string of the format. -/
def quoted (text : String) : String := String.ofList (quotedChars text.toList)

end SynthGraph.Toml
