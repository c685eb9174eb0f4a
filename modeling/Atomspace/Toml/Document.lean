import Atomspace.Toml.Plain
import Atomspace.Toml.Section
import Atomspace.Toml.Text
/-!
# TOML documents

Reads a document line by line: headers that open tables, and assignments of values to keys. A
document with any fault in it is refused as a whole.
-/

namespace Atomspace.Toml

/-! ## Blanks -/

/-- Drops spaces. -/
def skipSpaces (cs : List Char) : List Char :=
  cs.dropWhile isSpace

/-- Drops a comment, if there is one, up to the end of its line. -/
def skipComment : List Char → Option (List Char)
  | '#' :: cs =>
    let rest := cs.dropWhile fun c => !isControl c
    if rest.isEmpty || (endOfLine? rest).isSome then some rest else none
  | cs => some cs

/-- Drops spaces, comments and ends of lines, at most so many. -/
def skipLines : Nat → List Char → Option (List Char)
  | 0, cs => some cs
  | n + 1, cs => do
    let cs ← skipComment (skipSpaces cs)
    match endOfLine? cs with
    | some rest => skipLines n rest
    | none => return cs

/-- Drops all spaces, comments and ends of lines. -/
def skipGap (cs : List Char) : Option (List Char) :=
  skipLines (cs.length + 1) cs

/-- Drops what may stand behind a statement on its line. -/
def finishLine (cs : List Char) : Option (List Char) := do
  let cs ← skipComment (skipSpaces cs)
  if cs.isEmpty then return [] else endOfLine? cs

/-! ## Keys -/

/-- The characters of a key without quotes. -/
def isBare (c : Char) : Bool :=
  c.isAlphanum || c == '_' || c == '-'

/-- Reads a key without dots. Quoted keys stay on one line. -/
def simpleKey? (cs : List Char) : Option (String × List Char) :=
  match cs with
  | '"' :: '"' :: '"' :: _ | '\x27' :: '\x27' :: '\x27' :: _ => none
  | '"' :: _ | '\x27' :: _ => (quoted? cs).map fun (content, rest) => (String.ofList content, rest)
  | _ =>
    let key := cs.takeWhile isBare
    if key.isEmpty then none else some (String.ofList key, cs.dropWhile isBare)

/-- Reads a dotted key of at most so many parts: the parts before the last one, and the last. -/
def dottedKey? : Nat → List Char → Option ((List String × String) × List Char)
  | 0, _ => none
  | n + 1, cs => do
    let (key, cs) ← simpleKey? (skipSpaces cs)
    match skipSpaces cs with
    | '.' :: cs =>
      let ((path, last), cs) ← dottedKey? n cs
      return ((key :: path, last), cs)
    | cs => return (([], key), cs)

/-- Reads a dotted key. It has at most eighty parts. -/
def key? : List Char → Option ((List String × String) × List Char) :=
  dottedKey? 80

/-! ## Values -/

/-- Reads the items of a list up to the closing bracket, at most so many. Items are told apart by
commas, also behind the last one. -/
def items? {α : Type} (close : Char) (item : List Char → Option (α × List Char)) :
    Nat → List Char → Option (List α × List Char)
  | 0, _ => none
  | n + 1, cs => do
    let cs ← skipGap cs
    if cs.head? = some close then return ([], cs.drop 1)
    let (a, cs) ← item cs
    let cs ← skipGap cs
    match cs with
    | ',' :: cs =>
      let (rest, cs) ← items? close item n cs
      return (a :: rest, cs)
    | c :: cs => if c = close then return ([a], cs) else none
    | [] => none

/-- Reads an assignment. What may stand around its sign is for `gap` to drop, and `value` reads its
value. -/
def assignment? (gap : List Char → Option (List Char))
    (value : List Char → Option (Value × List Char)) (cs : List Char) :
    Option (((List String × String) × Value) × List Char) := do
  let (key, cs) ← key? cs
  match ← gap cs with
  | '=' :: cs =>
    let (v, cs) ← value (← gap cs)
    return ((key, v), cs)
  | _ => none

/-- Reads a value without brackets. -/
def simpleValue? (cs : List Char) : Option (Value × List Char) :=
  match cs with
  | '"' :: _ | '\x27' :: _ =>
    (quoted? cs).map fun (content, rest) => (.text (String.ofList content), rest)
  | _ => plain? cs

/-- Reads a value with brackets nested at most so deep. Between brackets a line may end anywhere but
inside a key. -/
def nestedValue? : Nat → List Char → Option (Value × List Char)
  | depth + 1, '[' :: cs => do
    let (items, cs) ← items? ']' (nestedValue? depth) (cs.length + 1) cs
    return (.array items, cs)
  | depth + 1, '\x7b' :: cs => do
    let field := assignment? skipGap (nestedValue? depth)
    let (fields, cs) ← items? '\x7d' field (cs.length + 1) cs
    let entries ← fields.foldlM (fun es ((path, key), v) => assign path key v es) []
    return (.table (completeEntries entries), cs)
  | _, cs => simpleValue? cs

/-- Reads a value. Brackets are nested at most eighty deep. -/
def value? : List Char → Option (Value × List Char) :=
  nestedValue? 80

/-! ## Statements -/

/-- A document that is being read. -/
structure Document where
  /-- All tables. -/
  root : Entries := []
  /-- The path of the table that assignments go to. -/
  current : List String := []

/-- Reads one statement and carries it out. -/
def statement? (d : Document) : List Char → Option (Document × List Char)
  | '[' :: '[' :: cs => do
    let ((path, key), cs) ← key? cs
    let cs ← after? ']' (← after? ']' cs)
    let root ← openItem path key d.root
    return ({ root, current := path ++ [key] }, cs)
  | '[' :: cs => do
    let ((path, key), cs) ← key? cs
    let cs ← after? ']' cs
    let root ← openTable path key d.root
    return ({ root, current := path ++ [key] }, cs)
  | cs => do
    let (((path, key), v), cs) ← assignment? (some ∘ skipSpaces) value? cs
    let put (_ : Origin) (es : Entries) : Option Entries := assign path key v es
    let root ← within .route some put d.current .header d.root
    return ({ d with root }, cs)

/-- Reads at most so many statements. -/
def statements? : Nat → Document → List Char → Option Document
  | 0, _, _ => none
  | n + 1, d, cs => do
    let cs ← skipGap cs
    if cs.isEmpty then return d
    let (d, cs) ← statement? d cs
    statements? n d (← finishLine cs)

/-- The entries of a document, if it has no fault. A byte order mark in front does not count. -/
def parse? (text : String) : Option (List (String × Value)) :=
  let cs := match text.toList with
    | '\uFEFF' :: cs => cs
    | cs => cs
  (statements? (cs.length + 1) {} cs).map fun d => completeEntries d.root

end Atomspace.Toml
