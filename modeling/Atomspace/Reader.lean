import Atomspace.Reader.Error
import Atomspace.Reader.Token
/-!
# The reader

The surface syntax: bare tokens, quoted texts and groups in parentheses, with blanks and comments
between them. A group directly behind `!` at the top level is a directive to evaluate it; every
other item at the top level is a fact.

Reading is a fold over the characters. `State` is what is known after some of them, `State.step`
takes in one more, and `State.finish` is the end of the text. So a fault is reported at the first
character that makes it certain, and what was read before a place does not depend on what follows.
-/

namespace Atomspace

/-- An item at the top level of a program. -/
inductive Statement (ν : Type) where
  /-- An atom to add to the space. -/
  | assert (atom : Atom ν)
  /-- An expression to evaluate. -/
  | evaluate (atom : Atom ν)

/-- The atom of a statement. -/
def Statement.atom {ν : Type} : Statement ν → Atom ν
  | assert a => a
  | evaluate a => a

namespace Reader

variable {ν : Type}

/-- A group whose closing parenthesis has not come yet. -/
structure Group (ν : Type) where
  /-- The children so far, last one first. -/
  children : List (Atom ν) := []
  /-- Whether the group is a directive. -/
  directive : Bool := false
  /-- Where the group starts. -/
  place : Position

/-- What the next character belongs to. -/
inductive Mode where
  /-- Nothing: it starts an item, a gap or a comment, or closes a group. -/
  | gap
  | comment
  /-- A bare token with the characters so far, last one first. -/
  | token (start : Position) (chars : List Char)
  /-- A quoted text with the characters so far, last one first. -/
  | quoted (start : Position) (chars : List Char)
  /-- A quoted text, directly behind a backslash. -/
  | escape (start : Position) (chars : List Char)

/-- What is known after reading some characters. -/
structure State (ν : Type) where
  /-- The place of the next character. -/
  place : Position := {}
  /-- What the next character belongs to. -/
  mode : Mode := .gap
  /-- The open groups, innermost first. -/
  groups : List (Group ν) := []
  /-- The statements that are complete, last one first, and where each starts. -/
  statements : List (Statement ν × Position) := []

namespace State

/-- Adds a complete item to the innermost group, or to the statements. -/
def emit (s : State ν) (a : Atom ν) (start : Position) : State ν :=
  match s.groups with
  | [] => { s with statements := (.assert a, start) :: s.statements }
  | g :: rest => { s with groups := { g with children := a :: g.children } :: rest }

/-- Opens a group. -/
def openGroup (s : State ν) (directive : Bool) (start : Position) : State ν :=
  { s with groups := { directive, place := start } :: s.groups }

/-- Closes the innermost group. -/
def closeGroup (s : State ν) : Except ReadError (State ν) :=
  match s.groups with
  | [] => .error (.unexpectedClose s.place)
  | g :: rest =>
    let s := { s with groups := rest }
    let a := Atom.expr g.children.reverse
    if g.directive then .ok { s with statements := (.evaluate a, g.place) :: s.statements }
    else .ok (s.emit a g.place)

/-- Completes a bare token. -/
def endToken [Scalar ν] (s : State ν) (start : Position) (chars : List Char) :
    Except ReadError (State ν) :=
  match leaf? chars.reverse with
  | some a => .ok ({ s with mode := .gap }.emit a start)
  | none => .error (.emptyVariable start)

/-- Takes in a character outside all items. The place is still that of the character. -/
def startItem (s : State ν) (c : Char) : Except ReadError (State ν) :=
  if Text.isBlank c then .ok { s with mode := .gap }
  else
    match c with
    | ';' => .ok { s with mode := .comment }
    | '(' => .ok ({ s with mode := .gap }.openGroup false s.place)
    | ')' => { s with mode := .gap }.closeGroup
    | '"' => .ok { s with mode := .quoted s.place [] }
    | _ => .ok { s with mode := .token s.place [c] }

/-- The character that an escape in a quoted text stands for. -/
def unescape? : Char → Option Char
  | '"' => some '"'
  | '\\' => some '\\'
  | 'n' => some '\n'
  | 't' => some '\t'
  | _ => none

/-- Takes in a character. The place is still that of the character. -/
def consume [Scalar ν] (s : State ν) (c : Char) : Except ReadError (State ν) :=
  match s.mode with
  | .gap => s.startItem c
  | .comment => .ok (if c = '\n' then { s with mode := .gap } else s)
  | .token start chars =>
    if !isDelimiter c then .ok { s with mode := .token start (c :: chars) }
    else if c = '(' ∧ chars = ['!'] ∧ s.groups.isEmpty then
      .ok ({ s with mode := .gap }.openGroup true start)
    else (s.endToken start chars).bind fun s => s.startItem c
  | .quoted start chars =>
    match c with
    | '"' => .ok ({ s with mode := .gap }.emit (.str (String.ofList chars.reverse)) start)
    | '\\' => .ok { s with mode := .escape start chars }
    | _ => .ok { s with mode := .quoted start (c :: chars) }
  | .escape start chars =>
    match unescape? c with
    | some d => .ok { s with mode := .quoted start (d :: chars) }
    | none => .error (.invalidEscape c s.place)

/-- Takes in a character and moves on to the next place. -/
def step [Scalar ν] (s : State ν) (c : Char) : Except ReadError (State ν) :=
  (s.consume c).map fun t => { t with place := s.place.next c }

/-- Completes what the end of the text completes. -/
def finish [Scalar ν] (s : State ν) : Except ReadError (State ν) := do
  let s ← match s.mode with
    | .gap | .comment => .ok s
    | .token start chars => s.endToken start chars
    | .quoted start _ | .escape start _ => .error (.unterminatedText start)
  match s.groups.getLast? with
  | some g => .error (.unclosed g.place)
  | none => .ok s

end State

/-- The state at the end of a text. -/
def readAll [Scalar ν] (text : String) : Except ReadError (State ν) :=
  (text.toList.foldlM State.step {}).bind State.finish

end Reader

variable {ν : Type} [Scalar ν]

/-- The statements of a program. -/
def readProgram (text : String) : Except ReadError (List (Statement ν)) :=
  (Reader.readAll text).map fun s => s.statements.reverse.map Prod.fst

/-- The atoms at the top level of a text, directives among them. -/
def readAtoms (text : String) : Except ReadError (List (Atom ν)) :=
  (readProgram text).map fun l => l.map Statement.atom

/-- The only atom of a text. -/
def readAtom (text : String) : Except ReadError (Atom ν) := do
  let s ← Reader.readAll text
  match s.statements.reverse with
  | [(statement, _)] => .ok statement.atom
  | statements =>
    let place := (statements[1]?.map Prod.snd).getD s.place
    .error (.notSingle statements.length place)

end Atomspace
