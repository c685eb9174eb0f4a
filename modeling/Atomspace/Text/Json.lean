import Atomspace.Double
/-!
# JSON texts

Documents for other programs, one item to a line, each level of nesting indented by two blanks.
-/

namespace Atomspace.Text

/-- A document. -/
inductive Json where
  /-- A number; what is not finite is written as `null`. -/
  | number (value : Double)
  | count (value : Nat)
  | text (value : String)
  | array (items : List Json)
  /-- Values under names. -/
  | object (fields : List (String × Json))

namespace Json

/-- A control character by its number in four hexadecimal digits. -/
def escapeNumber (c : Char) : String :=
  let digits := Nat.toDigits 16 c.toNat
  "\\u" ++ String.ofList (List.replicate (4 - digits.length) '0' ++ digits)

/-- How a character is written inside a text. -/
def escape (c : Char) : String :=
  match c with
  | '"' => "\\\""
  | '\\' => "\\\\"
  | '\n' => "\\n"
  | '\r' => "\\r"
  | '\t' => "\\t"
  | '\x08' => "\\b"
  | '\x0c' => "\\f"
  | c => if c.toNat < 0x20 then escapeNumber c else c.toString

/-- A text in quotes. -/
def quote (s : String) : String :=
  "\"" ++ String.join (s.toList.map escape) ++ "\""

/-- Items between brackets, each on a line of its own at one level more than the brackets. -/
def block (level : Nat) (opening closing : String) (items : List String) : String :=
  if items.isEmpty then opening ++ closing
  else
    let line (n : Nat) := "\n" ++ String.ofList (List.replicate (2 * n) ' ')
    opening ++ line (level + 1) ++ ("," ++ line (level + 1)).intercalate items
      ++ line level ++ closing

mutual

/-- The text of a document that stands at a level of nesting. -/
def write (level : Nat) : Json → String
  | number x =>
    if Scalar.isFinite x then x.writeShortest Double.exchangeLayout else "null"
  | count n => toString n
  | text s => quote s
  | array items => block level "[" "]" (writeItems (level + 1) items)
  | object fields => block level "\x7b" "\x7d" (writeFields (level + 1) fields)

/-- The texts of items. -/
def writeItems (level : Nat) : List Json → List String
  | [] => []
  | item :: rest => write level item :: writeItems level rest

/-- The texts of named values. -/
def writeFields (level : Nat) : List (String × Json) → List String
  | [] => []
  | (name, value) :: rest =>
    (quote name ++ ": " ++ write level value) :: writeFields level rest

end

/-- The text of a document. -/
def pretty : Json → String :=
  write 0

end Json

end Atomspace.Text
