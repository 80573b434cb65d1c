/-
# The program

Reads the files that the command line names and prints what the session prints, tick by tick.
-/
import EntityScript.CommandLine

namespace EntityScript

/-- The number of instructions that a script may execute in one tick. -/
def tickBudget : Nat := 1 <<< 62

/-- The text of a file. -/
def readFile (path : String) : IO (Except FileError String) := do
  try
    match String.fromUTF8? (← IO.FS.readBinFile path) with
    | some text => return .ok text
    | none => return .error .notText
  catch e =>
    return .error <|
      match e with
      | .noFileOrDirectory .. => .notFound
      | .inappropriateType _ code _ => if code = 21 then .isADirectory else .notADirectory
      | e => .other (toString e)

/-- The texts of several files, as a function of the path. -/
def readFiles (paths : List String) : IO (String → Except FileError String) := do
  let texts ← paths.mapM fun path => return (path, ← readFile path)
  return fun path => (texts.lookup path).getD (.error .notFound)

/-- Runs the ticks of a session and prints their text as it comes. -/
def runTicks (ticks : Nat) : Nat → Session → IO (Option Failure)
  | 0, _ => return some (Session.stillRunning ticks)
  | n + 1, s => do
    match s.tick tickBudget with
    | (text, .ok s) =>
      IO.print text
      runTicks ticks n s
    | (text, .error failure) =>
      IO.print text
      return failure

end EntityScript

open EntityScript in
/-- Runs the command line. -/
def main (arguments : List String) : IO UInt32 := do
  match Options.parse? arguments with
  | none =>
    IO.eprintln "Usage: [OPTIONS] <SCRIPT>"
    return 2
  | some o =>
    let read ← readFiles (o.script :: o.libraries)
    let failure ← match Session.start read o with
      | .error f => pure (some f)
      | .ok s => do
        if o.listing then IO.print s.program.listing
        runTicks o.ticks o.ticks s
    match failure with
    | none => return 0
    | some f =>
      IO.eprint f.text
      return 1
