/-!
# Files

What can go wrong when a file is read, and files held in memory: a directory with everything below
it, as contents under paths. Outside of it there are only the directories that contain it, and a path
that leads out of it does not find back.
-/

namespace Atomspace

/-- Why a file cannot be read. -/
inductive FileError where
  | missing
  | isDirectory
  /-- The path leads through something that is not a directory. -/
  | notDirectory
  /-- The path or a name in it is too long. -/
  | nameTooLong
  | notText
  /-- Anything else, by its description. -/
  | other (description : String)

/-- The wording of an error. -/
def FileError.message : FileError → String
  | missing => "No such file or directory (os error 2)"
  | isDirectory => "Is a directory (os error 21)"
  | notDirectory => "Not a directory (os error 20)"
  | nameTooLong => "File name too long (os error 36)"
  | notText => "stream did not contain valid UTF-8"
  | other description => description

/-- The text that bytes stand for. -/
def decodeText (bytes : ByteArray) : Except FileError String :=
  match String.fromUTF8? bytes with
  | some text => .ok text
  | none => .error .notText

/-- Files of a directory by their paths, whose names are separated by slashes. -/
structure Files where
  /-- The contents of each file. -/
  contents : List (List String × ByteArray)

namespace Files

/-- The files of a directory by their paths as text. -/
def ofList (files : List (String × ByteArray)) : Files :=
  ⟨files.map fun (path, bytes) => ((path.splitOn "/").filter (!·.isEmpty), bytes)⟩

/-- Whether names lead to a directory: to the whole, or on the way to a file. -/
def isDirectory (fs : Files) (names : List String) : Bool :=
  names.isEmpty || fs.contents.any fun f => names.isPrefixOf f.1 && names != f.1

/-- Whether names lead to a file. -/
def isFile (fs : Files) (names : List String) : Bool :=
  fs.contents.any fun f => f.1 == names

/-- Where a path leads. -/
inductive Place where
  /-- To the directory or below it, by names. -/
  | inside (names : List String)
  /-- To a directory that contains it. -/
  | above
  /-- To something else outside of it. -/
  | elsewhere

/-- Whether there is a directory at a place. -/
def isDirectoryAt (fs : Files) : Place → Bool
  | .inside names => fs.isDirectory names
  | .above => true
  | .elsewhere => false

/-- Whether there is a file at a place. -/
def isFileAt (fs : Files) : Place → Bool
  | .inside names => fs.isFile names
  | _ => false

/-- The directory that contains a place. -/
def Place.parent : Place → Place
  | .inside [] => .above
  | .inside names => .inside names.dropLast
  | _ => .above

/-- What has a name in a directory. -/
def Place.child (name : String) : Place → Place
  | .inside names => .inside (names ++ [name])
  | _ => .elsewhere

/-- Follows the names of a path from a directory. An empty name and a dot stay, two dots go back. -/
def walk (fs : Files) : Place → List String → Except FileError Place
  | place, [] => .ok place
  | place, name :: rest =>
    if fs.isFileAt place then .error .notDirectory
    else if !fs.isDirectoryAt place then .error .missing
    else if name = "" ∨ name = "." then fs.walk place rest
    else if name = ".." then fs.walk place.parent rest
    else if name.utf8ByteSize > 255 then .error .nameTooLong
    else fs.walk (place.child name) rest

/-- Reads the file at a path. A slash in front leads out of the directory. -/
def read (fs : Files) (path : String) : Except FileError ByteArray := do
  if path.utf8ByteSize > 4095 then throw .nameTooLong
  let start := if path.startsWith "/" then .above else .inside []
  let place ← fs.walk start (path.splitOn "/")
  let found := match place with
    | .inside names => fs.contents.lookup names
    | _ => none
  match found with
  | some bytes => return bytes
  | none => throw (if fs.isDirectoryAt place then .isDirectory else .missing)

end Files

end Atomspace
