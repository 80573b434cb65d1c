/-
# Compiling a script

A script is compiled against the names of the globals it may use.  The result is a program, or every
error that was found; a script with any error gives no program.
-/
import EntityScript.Compile.Statement
import EntityScript.Token.Scanner

namespace EntityScript

/-- A budget of recursive calls that suffices for a list of tokens. -/
def readingBudget (tokens : List Token) : Nat :=
  8 * tokens.length + 16

/-- Reads a script: its statements, and the state at its end. -/
def readTokens (unit : Nat) (globals : List String) (tokens : List Token) : Block × ParseState :=
  (ParseState.start unit globals tokens).advance.readScript (readingBudget tokens) .empty

/-- Compiles a list of tokens.  The number `unit` tells the functions of this compilation from those
of others. -/
def compileTokens (unit : Nat) (globals : List String) (tokens : List Token) :
    Except CompileError Program :=
  let (body, p) := readTokens unit globals tokens
  if p.diagnostics.isEmpty then
    .ok ⟨.assemble ⟨unit, 0⟩ none 0 p.literals body p.line, p.strings.reverse⟩
  else .error ⟨p.diagnostics.reverse⟩

/-- Compiles a source text. -/
def compile (unit : Nat) (globals : List String) (source : String) : Except CompileError Program :=
  compileTokens unit globals (tokens source)

end EntityScript
