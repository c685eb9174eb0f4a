/-!
# Quoted text in TOML

The four forms of quoted text: with escapes or without, on one line or on several. Text is read in
pieces, each one a character, an escape, an end of line or the closing quotes.
-/

namespace Atomspace.Toml

/-- Control characters that may not stand in a document. -/
def isControl (c : Char) : Bool :=
  (decide (c.toNat < 0x20) && c != '\t') || c.toNat == 0x7F

/-- Spaces and tabs. -/
def isSpace (c : Char) : Bool :=
  c == ' ' || c == '\t'

/-- Takes off an end of line, which is a line feed with or without a carriage return. -/
def endOfLine? : List Char → Option (List Char)
  | '\n' :: rest => some rest
  | '\r' :: '\n' :: rest => some rest
  | _ => none

/-- A piece of text and what is left after it. -/
structure Piece where
  /-- What the piece stands for. -/
  content : List Char
  /-- The characters after it. -/
  rest : List Char
  /-- Whether the text ends with it. -/
  isLast : Bool := false

/-- Reads pieces to the end of the text, at most so many. The answer is the text and what is left
after it. -/
def readPieces (next : List Char → Option Piece) : Nat → List Char → Option (List Char × List Char)
  | 0, _ => none
  | n + 1, cs => do
    let piece ← next cs
    if piece.isLast then return (piece.content, piece.rest)
    let (content, rest) ← readPieces next n piece.rest
    return (piece.content ++ content, rest)

/-! ## Escapes -/

/-- The value of a hexadecimal digit. -/
def hexVal? (c : Char) : Option Nat :=
  if c.isDigit then some (c.toNat - '0'.toNat)
  else if 'a' ≤ c ∧ c ≤ 'f' then some (c.toNat - 'a'.toNat + 10)
  else if 'A' ≤ c ∧ c ≤ 'F' then some (c.toNat - 'A'.toNat + 10)
  else none

/-- The character with a number, unless the number is reserved or too great. -/
def charOfNat? (n : Nat) : Option Char :=
  if h : n.isValidChar then some (Char.ofNatAux n h) else none

/-- Reads a character by its number in so many hexadecimal digits. -/
def numbered (width : Nat) (cs : List Char) : Option Piece := do
  let digits ← (cs.take width).mapM hexVal?
  if digits.length < width then none
  let c ← charOfNat? (digits.foldl (fun n d => 16 * n + d) 0)
  return { content := [c], rest := cs.drop width }

/-- Reads an escape from behind its backslash. -/
def escape : List Char → Option Piece
  | 'b' :: rest => some { content := ['\x08'], rest }
  | 't' :: rest => some { content := ['\t'], rest }
  | 'n' :: rest => some { content := ['\n'], rest }
  | 'f' :: rest => some { content := ['\x0c'], rest }
  | 'r' :: rest => some { content := ['\r'], rest }
  | 'e' :: rest => some { content := ['\x1b'], rest }
  | '"' :: rest => some { content := ['"'], rest }
  | '\\' :: rest => some { content := ['\\'], rest }
  | 'x' :: rest => numbered 2 rest
  | 'u' :: rest => numbered 4 rest
  | 'U' :: rest => numbered 8 rest
  | _ => none

/-! ## The four forms -/

/-- A character that stands for itself. -/
def plain : List Char → Option Piece
  | [] => none
  | c :: rest => if isControl c then none else some { content := [c], rest }

/-- The next piece of text with escapes on one line. -/
def basicPiece : List Char → Option Piece
  | '"' :: rest => some { content := [], rest, isLast := true }
  | '\\' :: rest => escape rest
  | cs => plain cs

/-- The next piece of text without escapes on one line. -/
def literalPiece : List Char → Option Piece
  | '\x27' :: rest => some { content := [], rest, isLast := true }
  | cs => plain cs

/-- Quotes inside text on several lines. One or two of them are text; three close it, and up to two
before those are text still. -/
def quotes (quote : Char) (cs : List Char) : Piece :=
  let count := min 5 (cs.takeWhile (· == quote)).length
  { content := List.replicate (if count < 3 then count else count - 3) quote
    rest := cs.drop count
    isLast := decide (3 ≤ count) }

/-- An end of line or a character that stands for itself. -/
def plainLines (cs : List Char) : Option Piece :=
  match endOfLine? cs with
  | some rest => some { content := cs.take (cs.length - rest.length), rest }
  | none => plain cs

/-- Drops spaces and ends of lines. -/
def skipBlank : Nat → List Char → List Char
  | 0, cs => cs
  | n + 1, cs =>
    match cs with
    | [] => []
    | c :: rest =>
      if isSpace c then skipBlank n rest
      else
        match endOfLine? cs with
        | some rest => skipBlank n rest
        | none => cs

/-- The next piece of text with escapes on several lines. A backslash at the end of a line joins it
with the next text. -/
def basicLinesPiece : List Char → Option Piece
  | [] => none
  | '"' :: rest => some (quotes '"' ('"' :: rest))
  | '\\' :: rest =>
    match endOfLine? (rest.dropWhile isSpace) with
    | some after => some { content := [], rest := skipBlank after.length after }
    | none => escape rest
  | cs => plainLines cs

/-- The next piece of text without escapes on several lines. -/
def literalLinesPiece : List Char → Option Piece
  | '\x27' :: rest => some (quotes '\x27' ('\x27' :: rest))
  | cs => plainLines cs

/-- Reads quoted text from its first quote. An end of line right after three opening quotes does not
count. -/
def quoted? (cs : List Char) : Option (List Char × List Char) :=
  let read (next : List Char → Option Piece) (body : List Char) :=
    readPieces next (body.length + 1) body
  let lines (body : List Char) := (endOfLine? body).getD body
  match cs with
  | '"' :: '"' :: '"' :: body => read basicLinesPiece (lines body)
  | '\x27' :: '\x27' :: '\x27' :: body => read literalLinesPiece (lines body)
  | '"' :: body => read basicPiece body
  | '\x27' :: body => read literalPiece body
  | _ => none

end Atomspace.Toml
