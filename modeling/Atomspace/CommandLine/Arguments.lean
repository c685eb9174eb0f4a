/-!
# Arguments

What a command accepts on the command line, and how its arguments are read. Arguments are taken from
left to right, and the first one that is wrong, or that asks for help, decides.

An argument that starts with a hyphen and is more than that is an option; behind a lone `--` nothing
is. An option takes its value behind an equals sign or from the next argument.
-/

namespace Atomspace.CommandLine

/-- Something a command accepts. -/
structure Parameter where
  name : String
  /-- What it is good for; may be empty. -/
  about : String := ""
  /-- What is shown for its value; a flag takes no value. -/
  placeholder : Option String := none
  /-- The value it has when it is not given, if that is shown. -/
  standard : Option String := none
  /-- The values it accepts. -/
  accepts : String → Bool := fun _ => true

/-- What a command accepts. -/
structure Grammar where
  name : String
  about : String
  /-- The value it requires, if any. -/
  required : Option Parameter := none
  /-- Its options and flags. -/
  options : List Parameter := []

/-- Arguments that have been read. -/
structure Arguments where
  /-- The required value. -/
  required : Option String := none
  /-- The values of the options given. -/
  values : List (String × String) := []
  flags : List String := []

/-- Why reading stops early. -/
inductive Stop where
  | help
  /-- An argument is wrong or missing. -/
  | misuse
deriving DecidableEq, Repr

/-- Whether an argument is an option rather than a value. -/
def isOption (arg : String) : Bool :=
  arg.startsWith "-" && arg != "-"

/-- The name of a long option, and its value behind the equals sign. -/
def splitOption (arg : String) : String × Option String :=
  let body := arg.toList.drop 2
  let name := body.takeWhile (· != '=')
  let rest := body.dropWhile (· != '=')
  (String.ofList name, if rest.isEmpty then none else some (String.ofList (rest.drop 1)))

namespace Arguments

/-- Takes the required value. There is only one. -/
def addRequired (a : Arguments) (g : Grammar) (value : String) : Except Stop Arguments :=
  match g.required, a.required with
  | some p, none =>
    if p.accepts value then .ok { a with required := some value } else .error .misuse
  | _, _ => .error .misuse

/-- Takes the value of an option. It is given once at most. -/
def addValue (a : Arguments) (p : Parameter) (value : String) : Except Stop Arguments :=
  if (a.values.lookup p.name).isSome || !p.accepts value then .error .misuse
  else .ok { a with values := a.values ++ [(p.name, value)] }

/-- Takes a flag. It is given once at most. -/
def addFlag (a : Arguments) (p : Parameter) : Except Stop Arguments :=
  if a.flags.contains p.name then .error .misuse
  else .ok { a with flags := a.flags ++ [p.name] }

/-- What a short option does: only that for help is known. -/
def short {α : Type} (arg : String) : Except Stop α :=
  .error (if arg.startsWith "-h" then .help else .misuse)

/-- Reads arguments behind a lone `--`. -/
def readTrailing (g : Grammar) (a : Arguments) : List String → Except Stop Arguments
  | [] => .ok a
  | arg :: rest => do readTrailing g (← a.addRequired g arg) rest

/-- Reads arguments. -/
def read (g : Grammar) (a : Arguments) : List String → Except Stop Arguments
  | [] => .ok a
  | arg :: rest =>
    if !isOption arg then do read g (← a.addRequired g arg) rest
    else if arg = "--" then readTrailing g a rest
    else if !arg.startsWith "--" then short arg
    else
      let (name, attached) := splitOption arg
      match g.options.find? (·.name == name), attached with
      | none, none => .error (if name = "help" then .help else .misuse)
      | none, some _ => .error .misuse
      | some p, some value =>
        if p.placeholder.isNone then .error .misuse
        else do read g (← a.addValue p value) rest
      | some p, none =>
        if p.placeholder.isNone then do read g (← a.addFlag p) rest
        else
          match rest with
          | [] => .error .misuse
          | value :: rest =>
            if isOption value then .error .misuse
            else do read g (← a.addValue p value) rest

end Arguments

end Atomspace.CommandLine
