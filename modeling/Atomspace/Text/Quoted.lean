import Atomspace.Text.Visible
/-!
# Quoted text

Two ways to write a text between double quotes. The surface syntax escapes only what would end the
text or hide a line; the identifying form also escapes every character that cannot be seen.
-/

namespace Atomspace.Text

/-- A text between double quotes, each character written by `escape`. -/
def quote (escape : Char → List Char) (s : String) : String :=
  String.ofList ('"' :: s.toList.flatMap escape ++ ['"'])

/-- The surface form of a character inside a quoted text. -/
def surfaceEscape : Char → List Char
  | '"' => ['\\', '"']
  | '\\' => ['\\', '\\']
  | '\n' => ['\\', 'n']
  | '\t' => ['\\', 't']
  | c => [c]

/-- The identifying form of a character: what cannot be seen is written by its code point. -/
def keyEscape : Char → List Char
  | '"' => ['\\', '"']
  | '\\' => ['\\', '\\']
  | '\n' => ['\\', 'n']
  | '\t' => ['\\', 't']
  | '\r' => ['\\', 'r']
  | '\x00' => ['\\', '0']
  | c => if isVisible c then [c] else "\\u\x7b".toList ++ Nat.toDigits 16 c.toNat ++ ['\x7d']

/-- The quoted form in the surface syntax. -/
def surfaceQuote : String → String :=
  quote surfaceEscape

/-- The quoted form that identifies a text. -/
def keyQuote : String → String :=
  quote keyEscape

end Atomspace.Text
