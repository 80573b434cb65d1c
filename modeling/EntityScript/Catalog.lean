/-
# Catalogs of compiled scripts

A script is compiled once, under a name, against the functions of one host.
-/
import EntityScript.Compile.Program
import EntityScript.Files
import EntityScript.Host.Basic

namespace EntityScript

/-- Why a script was not added to a catalog. -/
inductive LoadError where
  /-- Its file could not be read. -/
  | io (path : String) (reason : FileError)
  | compile (name : String) (e : CompileError)
  /-- There is a script of that name. -/
  | duplicate (name : String)
  /-- The path gives no name. -/
  | badName (path : String)
deriving DecidableEq, Repr

/-- The wording of a load error. -/
def LoadError.message : LoadError → String
  | .io path reason => "Couldn't read " ++ path ++ ": " ++ reason.message
  | .compile name e => "Script '" ++ name ++ "' failed to compile:\n" ++ e.message
  | .duplicate name => "A script named '" ++ name ++ "' is already loaded."
  | .badName path => "Can't name a script after " ++ path ++ "."

/-- The error behind a load error. -/
def LoadError.cause? : LoadError → Option String
  | .io _ reason => some reason.message
  | .compile _ e => some e.message
  | _ => none

/-- Compiled scripts by name. -/
structure Catalog where
  host : Host
  programs : Std.TreeMap String Program

namespace Catalog

/-- A catalog without scripts. -/
def new (host : Host) : Catalog :=
  ⟨host, {}⟩

/-- Compiles a script and adds it under a name. -/
def insert (c : Catalog) (unit : Nat) (name source : String) :
    Except LoadError (Program × Catalog) :=
  if c.programs.contains name then .error (.duplicate name)
  else
    match compile unit c.host.names source with
    | .ok p => .ok (p, { c with programs := c.programs.insert name p })
    | .error e => .error (.compile name e)

/-- Compiles the script in a file and adds it under the name of the file.  The name is looked at
before the file is read. -/
def loadFile (c : Catalog) (unit : Nat) (read : String → Except FileError String) (path : String) :
    Except LoadError (Program × Catalog) :=
  match stem? path with
  | none => .error (.badName path)
  | some name =>
    if c.programs.contains name then .error (.duplicate name)
    else
      match read path with
      | .error reason => .error (.io path reason)
      | .ok source => c.insert unit name source

/-- The program with a name. -/
def get? (c : Catalog) (name : String) : Option Program :=
  c.programs[name]?

end Catalog

end EntityScript
