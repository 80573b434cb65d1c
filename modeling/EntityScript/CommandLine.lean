/-
# The command line

Runs one script as a game would: attached to an entity and resumed once in every tick.
`Options.parse?` reads the arguments, `Session.start` compiles the libraries and the script, and
`Session.tick` runs one tick.  `execute` does all of it at once.
-/
import EntityScript.Catalog
import EntityScript.Code.Listing
import EntityScript.Component
import EntityScript.Host.Builtins

namespace EntityScript

/-- What the command line asks for. -/
structure Options where
  /-- The file of the script. -/
  script : String
  /-- The number of ticks after which to give up. -/
  ticks : Nat
  /-- Whether to show the compiled code first. -/
  listing : Bool
  /-- The files of libraries whose functions the script may call. -/
  libraries : List String
deriving DecidableEq, Repr

namespace Options

/-- Arguments as far as they have been read. -/
structure Given where
  script : Option String := none
  ticks : Option Nat := none
  listing : Bool := false
  /-- The latest first. -/
  libraries : List String := []
deriving DecidableEq, Repr

/-- The number of ticks if none is given. -/
def defaultTicks : Nat := 1000

/-- Reads a number of ticks: a word of sixty-four bits without a sign, or with a plus. -/
def ticks? (text : String) : Option Nat := do
  let digits := match text.toList with
    | '+' :: rest => rest
    | all => all
  let n ← Decimal.natural? digits
  if n < 1 <<< 64 then some n else none

/-- Takes the value of an option. -/
def setValue? (o : Given) (option value : String) : Option Given :=
  if value.isEmpty then none
  else if option = "--lib" then some { o with libraries := value :: o.libraries }
  else if option = "--ticks" && o.ticks.isNone then
    (ticks? value).map fun n => { o with ticks := some n }
  else none

/-- Takes the file of the script. -/
def setScript? (o : Given) (path : String) : Option Given :=
  if path.isEmpty || o.script.isSome then none else some { o with script := some path }

/-- Whether an argument looks like an option. -/
def looksLikeOption (argument : String) : Bool :=
  argument.startsWith "-" && argument ≠ "-"

/-- Splits an argument at its first equals sign. -/
def splitValue? (argument : String) : Option (String × String) :=
  match argument.toList.span (· ≠ '=') with
  | (_, []) => none
  | (option, _ :: value) => some (String.ofList option, String.ofList value)

/-- Reads arguments in order; after `--` all of them are files. -/
def read? : List String → Given → Option Given
  | [], o => some o
  | "--" :: rest, o => rest.foldlM setScript? o
  | argument :: rest, o =>
    if looksLikeOption argument then
      if argument = "--disassemble" then
        if o.listing then none else read? rest { o with listing := true }
      else
        match splitValue? argument with
        | some (option, value) => (setValue? o option value).bind (read? rest)
        | none =>
          match rest with
          | value :: rest =>
            if looksLikeOption value then none
            else (setValue? o argument value).bind (read? rest)
          | [] => none
    else (setScript? o argument).bind (read? rest)

/-- Reads the arguments; `none` if they are not understood. -/
def parse? (arguments : List String) : Option Options := do
  let o ← read? arguments {}
  let script ← o.script
  return ⟨script, o.ticks.getD defaultTicks, o.listing, o.libraries.reverse⟩

end Options

/-- Why the script did not run to its end: a message, and the error behind it. -/
structure Failure where
  message : String
  cause : Option String
deriving DecidableEq, Repr

/-- A text with every line indented. -/
def indent (text : String) : String :=
  "\n".intercalate ((text.splitOn "\n").map ("    " ++ ·))

/-- A failure as it is reported. -/
def Failure.text (f : Failure) : String :=
  "Error: " ++ f.message ++ "\n" ++
    match f.cause with
    | some cause => "\nCaused by:\n" ++ indent cause ++ "\n"
    | none => ""

/-- Adds the functions of the libraries to a host, one library after the other. -/
def addLibraries (read : String → Except FileError String) :
    List String → (unit : Nat) → Host → Except Failure (Nat × Host)
  | [], unit, host => .ok (unit, host)
  | path :: rest, unit, host =>
    match read path with
    | .error reason => .error ⟨"Failed to read library " ++ path, some reason.message⟩
    | .ok source =>
      match compile unit host.names source with
      | .error e => .error ⟨"Failed to compile library " ++ path, some e.message⟩
      | .ok p => addLibraries read rest (unit + 1) (host.addProgram p)

/-- A script that is attached to an entity. -/
structure Session where
  program : Program
  component : Component
  pool : Pool

namespace Session

/-- Compiles the libraries and the script, and attaches it. -/
def start (read : String → Except FileError String) (o : Options) : Except Failure Session := do
  let (unit, host) ← addLibraries read o.libraries 0 .builtins
  match (Catalog.new host).loadFile unit read o.script with
  | .error e => .error ⟨e.message, e.cause?⟩
  | .ok (p, _) =>
    match Component.empty.attach (.new host Pool.defaultBlockSize) p with
    | .error e => .error ⟨e.message, none⟩
    | .ok (_, component, pool) => .ok ⟨p, component, pool⟩

/-- Runs one tick: what was printed, and how to go on.  The session is over when the script has
ended or failed. -/
def tick (s : Session) (budget : Nat) : String × Except (Option Failure) Session :=
  let (report, component, pool) := s.component.tick budget s.pool
  (report.text,
    match report.faults with
    | e :: _ => .error (some ⟨e.message, none⟩)
    | [] =>
      if component.isEmpty then .error none
      else .ok { s with component := component, pool := pool })

/-- The failure of a script that is still running in the end. -/
def stillRunning (ticks : Nat) : Failure :=
  ⟨"Script still running after " ++ toString ticks ++ " ticks", none⟩

end Session

/-- What a run of the command line leaves: the exit code and both outputs. -/
structure Transcript where
  exit : Nat
  stdout : String
  stderr : String
deriving DecidableEq, Repr

namespace Transcript

/-- The end of a run. -/
def ofEnd (stdout : String) : Option Failure → Transcript
  | none => ⟨0, stdout, ""⟩
  | some f => ⟨1, stdout, f.text⟩

end Transcript

/-- Runs the ticks of a session; `stdout` is what has been printed so far. -/
def Session.run (budget ticks : Nat) : Nat → Session → (stdout : String) → Transcript
  | 0, _, stdout => .ofEnd stdout (some (stillRunning ticks))
  | n + 1, s, stdout =>
    match s.tick budget with
    | (text, .ok s) => Session.run budget ticks n s (stdout ++ text)
    | (text, .error failure) => .ofEnd (stdout ++ text) failure

/-- Runs the command line on arguments; `none` if they are not understood. -/
def execute (read : String → Except FileError String) (budget : Nat) (arguments : List String) :
    Option Transcript :=
  (Options.parse? arguments).map fun o =>
    match Session.start read o with
    | .error f => .ofEnd "" (some f)
    | .ok s => s.run budget o.ticks o.ticks (if o.listing then s.program.listing else "")

end EntityScript
