import SynthGraph.Toml

/-!
# Reading TOML text

Each reader takes characters off the front of the input or fails. A repetition ends where its item
fails; whoever comes next then meets what is left, so a malformed item is always refused.
-/

namespace SynthGraph.Toml

abbrev Parse (α : Type) := StateT (List Char) Option α

namespace Parse

/-! ## Readers -/

/-- The next character, if it has the property. -/
def satisfy (p : Char → Bool) : Parse Char := fun input =>
  match input with
  | c :: rest => if p c then some (c, rest) else none
  | [] => none

def char (c : Char) : Parse Unit := do
  let _ ← satisfy (· == c)

def word (s : String) : Parse Unit := fun input =>
  if s.toList.isPrefixOf input then some ((), input.drop s.length) else none

/-- All characters up to the first without the property. -/
def run (p : Char → Bool) : Parse (List Char) := fun input =>
  some (input.takeWhile p, input.dropWhile p)

/-- As `run`, but at least one character. -/
def run1 (p : Char → Bool) : Parse (List Char) := do
  let cs ← run p
  if cs.isEmpty then failure else return cs

def endOfInput : Parse Unit := fun input => if input.isEmpty then some ((), []) else none

def optional {α : Type} (item : Parse α) : Parse (Option α) := some <$> item <|> pure none

/-- At most `fuel` items, up to the first that fails. -/
def manyUpTo {α : Type} (item : Parse α) : Nat → Parse (List α)
  | 0 => pure []
  | fuel + 1 => (do
      let x ← item
      let more ← manyUpTo item fuel
      return x :: more) <|> pure []

/-- All items up to the first that fails; each takes at least one character. -/
def many {α : Type} (item : Parse α) : Parse (List α) := do
  manyUpTo item (← get).length

/-- Items with separators between them, at least one. -/
def separated {α : Type} (item : Parse α) (separator : Parse Unit) : Parse (List α) := do
  let first ← item
  let rest ← many (do separator; item)
  return first :: rest

/-- The text that a reader takes. -/
def taken {α : Type} (item : Parse α) : Parse String := fun input => do
  let (_, rest) ← item input
  return (String.ofList (input.take (input.length - rest.length)), rest)

/-! ## Characters -/

def quote : Char := '\x22'

def apostrophe : Char := '\x27'

def backslash : Char := '\x5c'

def isBlank (c : Char) : Bool := c == ' ' || c == '\t'

/-- No control character other than the tab. -/
def isPlain (c : Char) : Bool := c == '\t' || 0x20 ≤ c.toNat && c.toNat != 0x7F

/-- A character of a key without quotes. -/
def isBare (c : Char) : Bool := c.isAlphanum || c == '-' || c == '_'

def hexDigit? (c : Char) : Option Nat :=
  if '0' ≤ c ∧ c ≤ '9' then some (c.toNat - 48)
  else if 'a' ≤ c ∧ c ≤ 'f' then some (c.toNat - 87)
  else if 'A' ≤ c ∧ c ≤ 'F' then some (c.toNat - 55)
  else none

/-- The number of digits in a base up to sixteen. -/
def ofDigits (base : Nat) (digits : List Char) : Nat :=
  digits.foldl (fun n c => base * n + (hexDigit? c).getD 0) 0

/-! ## Blanks -/

def blanks : Parse Unit := do
  let _ ← run isBlank

def newline : Parse Unit := char '\n' <|> (do char '\r'; char '\n')

def comment : Parse Unit := do
  char '#'
  let _ ← run isPlain

/-- The rest of a line that has been read. -/
def lineEnd : Parse Unit := do
  blanks
  let _ ← optional comment
  newline <|> endOfInput

/-- Blanks, line ends and comments. -/
def gap : Parse Unit := do
  let _ ← many ((do let _ ← run1 isBlank) <|> newline <|> (do comment; newline))

/-! ## Strings -/

/-- A code point of exactly `count` digits. -/
def codePoint (count : Nat) : Parse Char := fun input =>
  let digits := input.take count
  let n := ofDigits 16 digits
  if digits.length = count ∧ digits.all (fun c => (hexDigit? c).isSome) ∧ n.isValidChar then
    some (Char.ofNat n, input.drop count)
  else none

def escape : Parse (List Char) := do
  char backslash
  let c ← satisfy fun _ => true
  match c with
  | 'b' => return ['\x08']
  | 't' => return ['\t']
  | 'n' => return ['\n']
  | 'f' => return ['\x0c']
  | 'r' => return ['\r']
  | '\x22' => return [quote]
  | '\x5c' => return [backslash]
  | 'u' => return [← codePoint 4]
  | 'U' => return [← codePoint 8]
  | _ => failure

/-- A piece of text that stands for itself. -/
def basicRun : Parse (List Char) := run1 fun c => isPlain c && c != quote && c != backslash

def literalRun : Parse (List Char) := run1 fun c => isPlain c && c != apostrophe

def basicString : Parse String := do
  char quote
  let pieces ← many (basicRun <|> escape)
  char quote
  return String.ofList pieces.flatten

def literalString : Parse String := do
  char apostrophe
  let cs ← run fun c => isPlain c && c != apostrophe
  char apostrophe
  return String.ofList cs

/-- One or two marks inside a text that three of them delimit. -/
def innerMarks (mark : Char) : Parse (List Char) := do
  let marks ← run1 (· == mark)
  if marks.length < 3 then return marks else failure

/-- The three marks at the end of a text; up to two more before them belong to it. -/
def closingMarks (mark : Char) : Parse (List Char) := do
  let marks ← run (· == mark)
  if 3 ≤ marks.length ∧ marks.length ≤ 5 then return marks.drop 3 else failure

/-- A line end that is skipped, with the blanks and line ends after it. -/
def continuation : Parse (List Char) := do
  char backslash
  blanks
  newline
  let _ ← many ((do let _ ← run1 isBlank) <|> newline)
  return []

/-- A text over several lines, made of the given pieces. A line end right at its start is dropped,
and any other one is a line feed. -/
def multiline (mark : Char) (piece : Parse (List Char)) : Parse String := do
  char mark
  char mark
  char mark
  let _ ← optional newline
  let pieces ← many (piece <|> (do newline; return ['\n']) <|> innerMarks mark)
  let marks ← closingMarks mark
  return String.ofList (pieces.flatten ++ marks)

def string : Parse String :=
  multiline quote (basicRun <|> continuation <|> escape) <|> basicString <|>
    multiline apostrophe literalRun <|> literalString

/-! ## Keys -/

def simpleKey : Parse String :=
  basicString <|> literalString <|> String.ofList <$> run1 isBare

/-- The most parts a key may have, and one more than the depth to which values may nest. -/
def limit : Nat := 80

/-- The parts of a key before the last one, and the last one. -/
def key : Parse (List String × String) := do
  let parts ← separated (do blanks; let part ← simpleKey; blanks; return part) (char '.')
  match parts.getLast? with
  | some last => if parts.length < limit then return (parts.dropLast, last) else failure
  | none => failure

/-! ## Numbers -/

/-- Digits, which single underscores may divide. -/
def digits (p : Char → Bool) : Parse (List Char) := do
  let first ← satisfy p
  let rest ← many (satisfy p <|> (do char '_'; satisfy p))
  return first :: rest

/-- A sign, and whether it is a minus. -/
def sign : Parse Bool := (do char '-'; return true) <|> (do char '+'; return false) <|> pure false

/-- The digits of a decimal number without leading zeros. -/
def decimalDigits : Parse (List Char) :=
  (do char '0'; return ['0']) <|> digits Char.isDigit

/-- Digits after the mark of their base. -/
def based (mark : String) (base : Nat) : Parse Nat := do
  word mark
  return ofDigits base (← digits fun c => (hexDigit? c).any (· < base))

def integer : Parse Int := do
  let value ← (do return (↑(← based "0x" 16 <|> based "0o" 8 <|> based "0b" 2) : Int)) <|> (do
    let negative ← sign
    let n := ofDigits 10 (← decimalDigits)
    return if negative then -(n : Int) else n)
  if -0x8000000000000000 ≤ value ∧ value < 0x8000000000000000 then return value else failure

/-- The number `n * 10 ^ exp` is too large for a double-precision number. -/
def overflows (n : Nat) (exp : Int) : Bool :=
  let size := (Nat.toDigits 10 n).length
  let bound := 0x3FFFFFFFFFFFFF <<< 970
  if n = 0 || size + exp < 300 then false
  else if 310 < size + exp then true
  else bound * Nat.pow 10 (-exp).toNat ≤ n * Nat.pow 10 exp.toNat

def exponent : Parse Int := do
  char 'e' <|> char 'E'
  let negative ← sign
  let n := ofDigits 10 (← digits Char.isDigit)
  return if negative then -(n : Int) else n

/-- A number with a fraction, an exponent or both; it must not be above the greatest one. -/
def decimalFloat : Parse Unit := do
  let negative ← sign
  let whole ← decimalDigits
  let (fraction, exp) ← (do return ([], ← exponent)) <|> (do
    char '.'
    let fraction ← digits Char.isDigit
    return (fraction, (← optional exponent).getD 0))
  if !negative && overflows (ofDigits 10 (whole ++ fraction)) (exp - fraction.length) then failure

def specialFloat : Parse Unit := do
  let _ ← sign
  word "inf" <|> word "nan"

/-! ## Dates and times -/

/-- A number of exactly `count` digits between two bounds. -/
def field (count low high : Nat) : Parse Nat := fun input =>
  let cs := input.take count
  let n := ofDigits 10 cs
  if cs.length = count ∧ cs.all Char.isDigit ∧ low ≤ n ∧ n ≤ high then
    some (n, input.drop count)
  else none

def isLeap (year : Nat) : Bool := year % 4 == 0 && (year % 100 != 0 || year % 400 == 0)

def daysIn (year month : Nat) : Nat :=
  if month = 2 then if isLeap year then 29 else 28
  else if month = 4 ∨ month = 6 ∨ month = 9 ∨ month = 11 then 30
  else 31

def date : Parse Unit := do
  let year ← field 4 0 9999
  char '-'
  let month ← field 2 1 12
  char '-'
  let _ ← field 2 1 (daysIn year month)

def time : Parse Unit := do
  let _ ← field 2 0 23
  char ':'
  let _ ← field 2 0 59
  char ':'
  let _ ← field 2 0 60
  let _ ← optional (do char '.'; run1 Char.isDigit)

def offset : Parse Unit := (do let _ ← satisfy fun c => c == 'Z' || c == 'z') <|> (do
  let _ ← satisfy fun c => c == '+' || c == '-'
  let _ ← field 2 0 23
  char ':'
  let _ ← field 2 0 59)

def dateTime : Parse Unit := (do
    date
    let _ ← optional (do
      let _ ← satisfy fun c => c == 'T' || c == 't' || c == ' '
      time
      optional offset)) <|> time

/-! ## Values -/

def scalar : Parse Item :=
  Item.string <$> string <|>
  (do word "true"; return .boolean true) <|>
  (do word "false"; return .boolean false) <|>
  Item.dateTime <$> taken dateTime <|>
  Item.float <$> taken (decimalFloat <|> specialFloat) <|>
  Item.integer <$> integer

/-- An array; a comma may follow its last item. -/
def array (item : Parse Item) : Parse Item := do
  char '['
  let element := do gap; let x ← item; gap; return x
  let items ← optional (separated element (char ','))
  if items.isSome then
    let _ ← optional (char ',')
  gap
  char ']'
  return .array (items.getD [])

/-- A table on one line. -/
def inlineTable (item : Parse Item) : Parse Item := do
  char '\x7b'
  let pair := do
    let (path, last) ← key
    char '='
    blanks
    let value ← item
    blanks
    return (path, last, value)
  let pairs ← optional (separated pair (char ','))
  blanks
  char '\x7d'
  match (pairs.getD []).foldlM (fun (entries : Entries) (path, last, value) =>
      entries.assign path last value) [] with
  | some entries => return .table .inline entries
  | none => failure

/-- A value in which others nest at most `depth` deep. -/
def value : Nat → Parse Item
  | 0 => scalar
  | depth + 1 => scalar <|> array (value depth) <|> inlineTable (value depth)

/-! ## Documents -/

def assignment : Parse Statement := do
  let (path, last) ← key
  char '='
  blanks
  let item ← value (limit - 1)
  lineEnd
  return .assign path last item

def rowHeader : Parse Statement := do
  word "[["
  let (path, last) ← key
  word "]]"
  lineEnd
  return .row path last

def tableHeader : Parse Statement := do
  char '['
  let (path, last) ← key
  char ']'
  lineEnd
  return .table path last

/-- A line, which may hold no statement. -/
def line : Parse (Option Statement) := do
  let statement ← (do newline; return none) <|>
    (do comment; newline <|> endOfInput; return none) <|>
    some <$> (rowHeader <|> tableHeader <|> assignment)
  blanks
  return statement

def document : Parse (List Statement) := do
  let _ ← optional (char '\uFEFF')
  blanks
  let lines ← many line
  endOfInput
  return lines.filterMap id

end Parse

/-- The entries of a text, if it is a document. -/
def Entries.ofText? (text : String) : Option Entries := do
  let statements ← Parse.document.run' text.toList
  ofStatements statements

end SynthGraph.Toml
