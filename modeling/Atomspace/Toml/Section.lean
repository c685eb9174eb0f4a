import Atomspace.Toml
/-!
# Tables under construction

The tables of a document while it is read. A table may be opened once by a header, and is opened
implicitly by headers and dotted keys that lead through it. How a table came to be decides how it
may be extended, so that no two lines of a document contradict each other.
-/

namespace Atomspace.Toml

/-- How a table came to be. -/
inductive Origin where
  /-- By a header of its own. -/
  | header
  /-- By a header that leads through it. -/
  | route
  /-- By dotted keys. -/
  | dotted
deriving DecidableEq

/-- Something under a key of a document that is being read. -/
inductive Node where
  /-- A complete value. -/
  | value (v : Value)
  /-- A table that may still be extended. -/
  | table (origin : Origin) (entries : List (String × Node))
  /-- Tables that were opened under one name one after the other, last one first. -/
  | tables (last : List (String × Node)) (others : List (List (String × Node)))

/-- The entries of a table that is being read. -/
abbrev Entries := List (String × Node)

/-- Puts a node in the place of the one under its key. -/
def Entries.replace (es : Entries) (key : String) (n : Node) : Entries :=
  es.map fun e => if e.1 == key then (key, n) else e

/-- Changes the table at the end of a path, given how the table at its start came to be. Tables that
are missing on the way come to be as `missing` says. What a table counts as once it has been entered
is up to `enter`, which may also refuse. Of several tables under one name the last one is entered. -/
def within (missing : Origin) (enter : Origin → Option Origin)
    (f : Origin → Entries → Option Entries) :
    List String → Origin → Entries → Option Entries
  | [], origin, es => f origin es
  | key :: path, _, es =>
    match es.lookup key with
    | none => do
      let sub ← within missing enter f path missing []
      return es ++ [(key, .table missing sub)]
    | some (.table origin sub) => do
      let origin ← enter origin
      let sub ← within missing enter f path origin sub
      return es.replace key (.table origin sub)
    | some (.tables last others) => do
      let last ← within missing enter f path .header last
      return es.replace key (.tables last others)
    | some (.value _) => none

/-- What a table counts as once a dotted key leads through it. A table that a header opened is closed
to dotted keys; one that headers only lead through is open to them, and no header opens it after. -/
def Origin.enterDotted : Origin → Option Origin
  | .header => none
  | .route | .dotted => some .dotted

/-- Assigns a value to a dotted key. -/
def assign (path : List String) (key : String) (v : Value) (es : Entries) : Option Entries :=
  let put (origin : Origin) (es : Entries) : Option Entries :=
    if (!path.isEmpty && origin != .dotted) || (es.lookup key).isSome then none
    else some (es ++ [(key, .value v)])
  within .dotted Origin.enterDotted put path .header es

/-- Opens a table by its header. -/
def openTable (path : List String) (key : String) (es : Entries) : Option Entries :=
  let insert (_ : Origin) (es : Entries) : Option Entries :=
    match es.lookup key with
    | none => some (es ++ [(key, .table .header [])])
    | some (.table .route sub) => some (es.replace key (.table .header sub))
    | _ => none
  within .route some insert path .header es

/-- Opens one more table under a name. -/
def openItem (path : List String) (key : String) (es : Entries) : Option Entries :=
  let insert (_ : Origin) (es : Entries) : Option Entries :=
    match es.lookup key with
    | none => some (es ++ [(key, .tables [] [])])
    | some (.tables last others) => some (es.replace key (.tables [] (last :: others)))
    | _ => none
  within .route some insert path .header es

mutual

/-- The value that a node stands for when the document is complete. -/
def Node.complete : Node → Value
  | .value v => v
  | .table _ entries => .table (completeEntries entries)
  | .tables last others =>
    .array ((Value.table (completeEntries last) :: completeTables others).reverse)

/-- The values under the keys of a table. -/
def completeEntries : List (String × Node) → List (String × Value)
  | [] => []
  | (key, n) :: es => (key, n.complete) :: completeEntries es

/-- The values of several tables. -/
def completeTables : List (List (String × Node)) → List Value
  | [] => []
  | es :: others => .table (completeEntries es) :: completeTables others

end

end Atomspace.Toml
