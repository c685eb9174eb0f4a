import Atomspace.Config
import Atomspace.Double
import Atomspace.Files
import Atomspace.Program
/-!
# Workspaces

What commands work with: an evaluator and a space, into which a program may be loaded first. A
program that cannot be read or has an error in it makes the command fail.
-/

namespace Atomspace.CommandLine

/-- Why a command fails: what it was doing, and the cause. -/
structure Failure where
  /-- What the command was doing. -/
  context : String
  cause : String

/-- A failure as it is reported. Further lines of the cause are indented like its first line. -/
def Failure.report (f : Failure) : String :=
  "Error: " ++ f.context ++ "\n\nCaused by:\n    " ++ "\n    ".intercalate (f.cause.splitOn "\n") ++ "\n"

/-- A program on a disk: its path and what reading it gave. -/
structure Source where
  path : String
  contents : Except FileError ByteArray

/-- What commands work with: how they evaluate, and their space. -/
structure Workspace where
  evaluator : Evaluator Double
  space : Space Double

/-- The workspace at the start. -/
def Workspace.empty (c : Config Double) : Workspace where
  evaluator := { config := c.eval, registry := .standard }
  space := .empty c.space

/-- Runs a program. -/
def Workspace.load (w : Workspace) (source : Source) :
    Except Failure (List (Output Double) × Workspace) :=
  match source.contents.bind decodeText with
  | .error error => .error
    { context := "failed to read program: " ++ source.path, cause := error.message }
  | .ok text =>
    match w.evaluator.runProgram text w.space with
    | (.error error, _) => .error
      { context := "failed to parse " ++ source.path, cause := error.message }
    | (.ok outputs, space) => .ok (outputs, { w with space })

/-- The workspace after a program, if there is one. -/
def Workspace.start (c : Config Double) (source : Option Source) : Except Failure Workspace :=
  match source with
  | none => .ok (.empty c)
  | some source => ((Workspace.empty c).load source).map Prod.snd

/-- Reads an atom from an argument. -/
def readArgument (context text : String) : Except Failure (Atom Double) :=
  (readAtom text).mapError fun error => { context, cause := error.message }

end Atomspace.CommandLine
