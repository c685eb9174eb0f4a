import Atomspace.Atom
import Atomspace.Text.Blank
/-!
# Tokens

Which characters end a bare token, and which leaf a token stands for: a variable, a number or a
symbol. A word such as `inf` is a symbol, since a number starts with a digit or a point before one.
-/

namespace Atomspace.Reader

/-- Whether a character ends a bare token. -/
def isDelimiter (c : Char) : Bool :=
  Text.isBlank c || c == '(' || c == ')' || c == '"' || c == ';'

/-- The whole number of 64 bits that a token writes: an optional sign and digits. -/
def int? (cs : List Char) : Option Int64 :=
  let (negative, ds) := Decimal.splitSign cs
  if ds.isEmpty || !ds.all Char.isDigit then none
  else
    let magnitude : Int := Decimal.ofDigits ds
    let value := if negative then -magnitude else magnitude
    if Int64.minValue.toInt ≤ value ∧ value ≤ Int64.maxValue.toInt then some (Int64.ofInt value)
    else none

/-- Whether a token starts like a number: a digit, or a point and a digit, after an optional sign. -/
def looksNumeric (cs : List Char) : Bool :=
  match (Decimal.splitSign cs).2 with
  | '.' :: c :: _ => c.isDigit
  | c :: _ => c.isDigit
  | [] => false

/-- The number that a token writes, if it starts like one. -/
def decimal? (cs : List Char) : Option Decimal :=
  if looksNumeric cs then Decimal.ofChars? cs else none

/-- The leaf that a token stands for; none for a variable sign without a name. -/
def leaf? {ν : Type} [Scalar ν] (cs : List Char) : Option (Atom ν) :=
  match cs with
  | ['$'] => none
  | '$' :: name => some (.var (String.ofList name))
  | _ =>
    match int? cs, decimal? cs with
    | some n, _ => some (.int n)
    | none, some d => some (.float (Scalar.ofDecimal d))
    | none, none => some (.symbol (String.ofList cs))

end Atomspace.Reader
