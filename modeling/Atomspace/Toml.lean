import Atomspace.Double
/-!
# TOML values

What a document in the format TOML 1.1 denotes. Dates and times are only told apart from other
values. A word may have the form of a number and still stand for none; a document may hold such words
where nobody asks for their value.
-/

namespace Atomspace.Toml

/-- A value of a document. -/
inductive Value where
  | text (value : String)
  | integer (value : Int)
  | float (value : Double)
  /-- A word in the form of a number that stands for none: it has no digits, or some that are not of
  its base, or it is out of range. -/
  | unreadable
  | boolean (value : Bool)
  /-- A date, a time or both. -/
  | dateTime
  | array (items : List Value)
  /-- Values under keys. -/
  | table (entries : List (String × Value))

instance : Inhabited Value := ⟨.table []⟩

mutual

/-- Whether every word in a value stands for something. -/
def Value.isReadable : Value → Bool
  | .unreadable => false
  | .array items => areReadable items
  | .table entries => entriesReadable entries
  | _ => true

/-- Whether every word in a list stands for something. -/
def areReadable : List Value → Bool
  | [] => true
  | v :: vs => v.isReadable && areReadable vs

/-- Whether every word under some keys stands for something. -/
def entriesReadable : List (String × Value) → Bool
  | [] => true
  | (_, v) :: es => v.isReadable && entriesReadable es

end

end Atomspace.Toml
