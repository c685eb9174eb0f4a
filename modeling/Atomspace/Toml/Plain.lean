import Atomspace.Toml.Text
import Atomspace.Toml
/-!
# Plain values in TOML

Values without quotes or brackets: truth values, numbers, dates and times. Each is one word, and the
word's form alone decides whether it may stand in a document. A word in the form of a number may still
stand for none; such a word is unreadable, but no fault.
-/

namespace Atomspace.Toml

/-! ## Words -/

/-- The characters of words. All others have a meaning of their own in a document. -/
def isPlain (c : Char) : Bool :=
  !"=,[]\x7b\x7d# \t\r\n".contains c

/-- Whether a character begins a quoted text where a value is expected. -/
def isQuote (c : Char) : Bool :=
  c == '"' || c == '\x27'

/-- Splits off a word. Spaces belong to it when it goes on behind them. -/
def splitWord : List Char → List Char × List Char
  | [] => ([], [])
  | c :: cs =>
    if isPlain c || isSpace c then
      let (word, rest) := splitWord cs
      if isPlain c || word.head?.any (!isQuote ·) then (c :: word, rest) else ([], c :: cs)
    else ([], c :: cs)

/-! ## Numbers -/

/-- Takes the underscores out of a number. Each stands between two digits. -/
def ungrouped? (isDigit : Char → Bool) (cs : List Char) : Option (List Char) :=
  let groups := cs.splitOn '_'
  if (groups.zip groups.tail).all fun (left, right) =>
    left.getLast?.any isDigit && right.head?.any isDigit then some groups.flatten else none

/-- The value of a digit of a base up to sixteen. -/
def digitVal (c : Char) : Nat :=
  if c.isDigit then c.toNat - '0'.toNat else c.toLower.toNat - 'a'.toNat + 10

/-- The value of a row of digits in a base. -/
def ofDigits (base : Nat) (ds : List Char) : Int :=
  (ds.foldl (fun n c => base * n + digitVal c) 0 : Nat)

/-- Whether a character is a digit of a base up to sixteen. -/
def isDigitOf (base : Nat) (c : Char) : Bool :=
  (c.isDigit && decide (c.toNat - '0'.toNat < base))
    || (decide (10 < base) && (('a' ≤ c && c ≤ 'f') || ('A' ≤ c && c ≤ 'F')))

/-- Whether a zero leads other digits. -/
def hasLeadingZero (cs : List Char) : Bool :=
  cs.head? == some '0' && decide (1 < cs.length)

/-- The whole number of a row of digits, if it is one that 128 bits hold, with a sign or without. -/
def wholeNumber (base : Nat) (negative : Bool) (ds : List Char) : Value :=
  let n := if negative then -ofDigits base ds else ofDigits base ds
  let limit : Nat := 1 <<< 128
  if !ds.isEmpty && ds.all (isDigitOf base) && decide (-limit ≤ 2 * n) && decide (n < limit) then
    .integer n
  else .unreadable

/-- Reads a whole number in a base from behind its mark. -/
def based? (base : Nat) (cs : List Char) : Option Value :=
  if cs.all fun c => isDigitOf base c || c == '_' then
    (ungrouped? (isDigitOf 16) cs).map (wholeNumber base false)
  else none

/-- Reads a whole number with or without a sign. Underscores in it stand between digits, of whatever
base. -/
def whole? (cs : List Char) : Option Value := do
  let (negative, body) := Decimal.splitSign cs
  if body.isEmpty || hasLeadingZero body || body.contains ' ' then none
  let ds ← ungrouped? (isDigitOf 16) cs
  return wholeNumber 10 negative (Decimal.splitSign ds).2

/-- Reads a number with a fraction or an exponent. There are digits on both sides of the point. -/
def float? (cs : List Char) : Option Value := do
  let cs ← ungrouped? Char.isDigit cs
  let body := (Decimal.splitSign cs).2
  let whole := body.takeWhile Char.isDigit
  let rest := body.dropWhile Char.isDigit
  if whole.isEmpty || hasLeadingZero whole then none
  if rest.head? = some '.' && !(rest.drop 1).head?.any Char.isDigit then none
  let x := Double.ofDecimal (← Decimal.ofChars? cs)
  return if Scalar.isFinite x then .float x else .unreadable

/-- Reads a number. What comes behind its first digits tells its kind. -/
def number? (cs : List Char) : Option Value :=
  match cs with
  | '0' :: 'x' :: ds => based? 16 ds
  | '0' :: 'o' :: ds => based? 8 ds
  | '0' :: 'b' :: ds => based? 2 ds
  | _ =>
    let rest := (Decimal.splitSign cs).2.dropWhile Char.isDigit
    if rest.any (".eE".contains ·) then float? cs
    else if rest.isEmpty || rest.head? = some '_' then whole? cs
    else none

/-- Reads infinity or "not a number". -/
def special? (cs : List Char) : Option Value :=
  let (negative, body) := Decimal.splitSign cs
  let signed (x : Double) : Value := .float (if negative then -x else x)
  if body = "inf".toList then some (signed .infinity)
  else if body = "nan".toList then some (signed .nan)
  else none

/-! ## Dates and times -/

/-- Reads a number of exactly so many digits, within bounds. -/
def part? (width low high : Nat) (cs : List Char) : Option (Nat × List Char) :=
  let ds := cs.take width
  let n := Decimal.ofDigits ds
  if ds.length = width ∧ ds.all Char.isDigit ∧ low ≤ n ∧ n ≤ high then some (n, cs.drop width)
  else none

/-- The number of days in a month. -/
def daysIn (year month : Nat) : Nat :=
  if month = 2 then
    if year % 4 = 0 ∧ (year % 100 ≠ 0 ∨ year % 400 = 0) then 29 else 28
  else if month ∈ [4, 6, 9, 11] then 30
  else 31

/-- Takes off a character. -/
def after? (c : Char) : List Char → Option (List Char)
  | [] => none
  | d :: cs => if c = d then some cs else none

/-- Takes off a date. -/
def date? (cs : List Char) : Option (List Char) := do
  let (year, cs) ← part? 4 0 9999 cs
  let (month, cs) ← part? 2 1 12 (← after? '-' cs)
  let (_, cs) ← part? 2 1 (daysIn year month) (← after? '-' cs)
  return cs

/-- Takes off a fraction of a second, if there is one. -/
def secondFraction? : List Char → Option (List Char)
  | '.' :: c :: cs => if c.isDigit then some (cs.dropWhile Char.isDigit) else none
  | '.' :: [] => none
  | cs => some cs

/-- Takes off a time of day. The seconds may be left out. -/
def time? (cs : List Char) : Option (List Char) := do
  let (_, cs) ← part? 2 0 23 cs
  let (_, cs) ← part? 2 0 59 (← after? ':' cs)
  match cs with
  | ':' :: cs =>
    let (_, cs) ← part? 2 0 60 cs
    secondFraction? cs
  | _ => return cs

/-- Whether the characters are a distance from universal time, or nothing. -/
def isOffset : List Char → Bool
  | [] | ['Z'] | ['z'] => true
  | sign :: cs =>
    (sign == '+' || sign == '-') && (do
      let (_, cs) ← part? 2 0 23 cs
      let (_, cs) ← part? 2 0 59 (← after? ':' cs)
      return cs.isEmpty : Option Bool) == some true

/-- Whether the characters are a date, a time, or a date with a time behind a mark or a space. -/
def isDateTime (cs : List Char) : Bool :=
  match date? cs with
  | some [] => true
  | some (mark :: rest) => "Tt ".contains mark && (time? rest).any isOffset
  | none => time? cs == some []

/-! ## Values -/

/-- The value of a word. -/
def ofWord? (cs : List Char) : Option Value :=
  if cs = "true".toList then some (.boolean true)
  else if cs = "false".toList then some (.boolean false)
  else if isDateTime cs then some .dateTime
  else (special? cs).or (number? cs)

/-- Reads a plain value. -/
def plain? (cs : List Char) : Option (Value × List Char) :=
  let (word, rest) := splitWord cs
  (ofWord? word).map fun v => (v, rest)

end Atomspace.Toml
