/-
# Files

Scripts are read from files.  `Files` is a folder with everything in it; reading follows a relative
path from there, the way an operating system does.  `stem?` is the name that a script gets from the
path of its file.
-/

namespace EntityScript

/-- Why a file could not be read. -/
inductive FileError where
  | notFound
  | notADirectory
  | isADirectory
  /-- The path, or one of its names, is longer than a path or a name can be. -/
  | nameTooLong
  /-- The path has a zero byte, with which no name can be written. -/
  | zeroByte
  /-- The content is not text. -/
  | notText
  /-- Any other reason. -/
  | other (message : String)
deriving DecidableEq, Repr

/-- The wording of a file error. -/
def FileError.message : FileError → String
  | .notFound => "No such file or directory (os error 2)"
  | .notADirectory => "Not a directory (os error 20)"
  | .isADirectory => "Is a directory (os error 21)"
  | .nameTooLong => "File name too long (os error 36)"
  | .zeroByte => "file name contained an unexpected NUL byte"
  | .notText => "stream did not contain valid UTF-8"
  | .other message => message

/-- The parts of a path, between its slashes. -/
def pathParts (path : String) : List String :=
  path.splitOn "/"

/-- The last part of a path that names something: empty parts and `.` do not, and `..` names no
file. -/
def fileName? (path : String) : Option String :=
  match (pathParts path).reverse.filter fun part => part ≠ "" ∧ part ≠ "." with
  | [] => none
  | name :: _ => if name = ".." then none else some name

/-- The name of a file without its extension: what comes before the last dot, unless that is
nothing. -/
def stem? (path : String) : Option String :=
  (fileName? path).map fun name =>
    match name.toList.reverse.dropWhile (· ≠ '.') with
    | [] | [_] => name
    | _ :: before => String.ofList before.reverse

/-- The files of a folder, each with the names that lead to it and its content. -/
structure Files where
  entries : List (List String × ByteArray)

namespace Files

/-- A folder from the relative paths of its files. -/
def ofPaths (files : List (String × ByteArray)) : Files :=
  ⟨files.map fun (path, content) =>
    ((pathParts path).filter fun part => part ≠ "" ∧ part ≠ ".", content)⟩

/-- What a path leads to. -/
inductive Node where
  | directory
  | file (content : ByteArray)

/-- What is found under a list of names. -/
def node? (f : Files) (names : List String) : Option Node :=
  match f.entries.lookup names with
  | some content => some (.file content)
  | none =>
    if names.isEmpty || f.entries.any fun entry => names.isPrefixOf entry.1 then some .directory
    else none

/-- The most bytes that a name can have. -/
def longestName : Nat := 255

/-- The most bytes that a path can have. -/
def longestPath : Nat := 4095

/-- Why nothing can be read outside.  The folders there exist, and nothing else in them is known, so
a part with a name of its own is not found. -/
def outside : List String → FileError
  | [] => .isADirectory
  | part :: rest =>
    if part = "" || part = "." || part = ".." then outside rest
    else if longestName < part.utf8ByteSize then .nameTooLong
    else .notFound

/-- Follows the parts of a path from a folder, which is given by its names, innermost first. -/
def walk (f : Files) : List String → (folder : List String) → Except FileError Node
  | [], folder =>
    match f.node? folder.reverse with
    | some node => .ok node
    | none => .error .notFound
  | part :: rest, folder =>
    match f.node? folder.reverse with
    | some .directory =>
      if part = "" || part = "." then walk f rest folder
      else if part = ".." then
        match folder with
        | [] => .error (outside rest)
        | _ :: outer => walk f rest outer
      else if longestName < part.utf8ByteSize then .error .nameTooLong
      else walk f rest (part :: folder)
    | some (.file _) => .error .notADirectory
    | none => .error .notFound

/-- The text of the file at a path. -/
def read (f : Files) (path : String) : Except FileError String :=
  if path.toList.contains '\x00' then .error .zeroByte
  else if path.isEmpty then .error .notFound
  else if longestPath < path.utf8ByteSize then .error .nameTooLong
  else if path.startsWith "/" then .error (outside (pathParts path))
  else
    match f.walk (pathParts path) [] with
    | .error e => .error e
    | .ok .directory => .error .isADirectory
    | .ok (.file content) =>
      match String.fromUTF8? content with
      | some text => .ok text
      | none => .error .notText

end Files

end EntityScript
