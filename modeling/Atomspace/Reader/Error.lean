/-!
# Places in a text, and what can be wrong there
-/

namespace Atomspace

namespace Reader

/-- A place in a text. Lines and columns count from one; a column is a character. -/
structure Position where
  line : Nat := 1
  column : Nat := 1
deriving DecidableEq, Repr

/-- The place behind a character. -/
def Position.next (p : Position) (c : Char) : Position :=
  if c = '\n' then ⟨p.line + 1, 1⟩ else ⟨p.line, p.column + 1⟩

/-- The place as it appears in messages. -/
def Position.text (p : Position) : String :=
  s!"{p.line}:{p.column}"

end Reader

/-- Why a text cannot be read. -/
inductive ReadError where
  /-- A closing parenthesis without an open group. -/
  | unexpectedClose (place : Reader.Position)
  /-- A group that is never closed; of several the outermost one. -/
  | unclosed (place : Reader.Position)
  /-- A quoted text that is never closed. -/
  | unterminatedText (place : Reader.Position)
  /-- A backslash before a character that has no escape. -/
  | invalidEscape (escape : Char) (place : Reader.Position)
  /-- A variable sign with no name behind it. -/
  | emptyVariable (place : Reader.Position)
  /-- Some number of statements other than one, where one atom was expected. The place is that of
  the second statement, or the end of a text without any. -/
  | notSingle (found : Nat) (place : Reader.Position)
deriving DecidableEq, Repr

/-- The message for the reader of the text. -/
def ReadError.message : ReadError → String
  | unexpectedClose p => s!"unexpected ')' at {p.text}"
  | unclosed p => s!"unclosed '(' opened at {p.text}"
  | unterminatedText p => s!"unterminated string starting at {p.text}"
  | invalidEscape c p => "invalid escape '\\" ++ c.toString ++ s!"' at {p.text}"
  | emptyVariable p => s!"variable without a name at {p.text}"
  | notSingle n p => s!"expected exactly one atom, found {n} (at {p.text})"

end Atomspace
