/-
# Compile errors

A diagnostic says on which line, at which word and why a script was refused.
-/
import EntityScript.Token.Basic

namespace EntityScript

/-- Why a script is refused. -/
inductive Complaint where
  /-- Text that is no token. -/
  | lexical (message : String)
  /-- Something that had to come next did not. -/
  | expected (what : String)
  | tooManyParameters
  | tooManyArguments
  | tooManyLocals
  | tooManyLiterals
  | duplicateLocal
  /-- A local that is read while its first value is computed. -/
  | ownInitializer
  | undefinedVariable (name : String)
  | unknownMember (name : String)
  /-- An assignment to something that is neither a variable nor a member of one. -/
  | invalidTarget
  | logicalOperator
  | numberRange
  | jumpTooFar
  | loopTooLarge
deriving DecidableEq, Repr

/-- The wording of a complaint. -/
def Complaint.message : Complaint → String
  | .lexical message => message
  | .expected what => "Expect " ++ what ++ "."
  | .tooManyParameters => "Can't have more than 255 parameters."
  | .tooManyArguments => "Can't have more than 255 arguments."
  | .tooManyLocals => "Too many local variables in function."
  | .tooManyLiterals => "Too many literals in one function."
  | .duplicateLocal => "Already a variable with this name in this scope."
  | .ownInitializer => "Can't read local variable in its own initializer."
  | .undefinedVariable name => "Undefined variable '" ++ name ++ "'."
  | .unknownMember name => "Unknown member '" ++ name ++ "'; expected r, t, x or y."
  | .invalidTarget => "Invalid assignment target."
  | .logicalOperator => "Logical operators 'and' and 'or' are not supported."
  | .numberRange => "Number literal is out of range."
  | .jumpTooFar => "Too much code to jump over."
  | .loopTooLarge => "Loop body too large."

/-- Where in a script a diagnostic points. -/
inductive Location where
  /-- At the end of the source. -/
  | atEnd
  /-- At a word. -/
  | at (word : String)
  /-- Nowhere in particular: the complaint itself names the text. -/
  | nowhere
deriving DecidableEq, Repr

/-- Where a complaint about a token points. -/
def Location.ofToken (t : Token) : Location :=
  match t.kind with
  | .eof => .atEnd
  | .error => .nowhere
  | _ => .at t.text

/-- The place as a diagnostic words it. -/
def Location.text : Location → String
  | .atEnd => " at end"
  | .at word => " at '" ++ word ++ "'"
  | .nowhere => ""

/-- One error of a script. -/
structure Diagnostic where
  line : Nat
  location : Location
  complaint : Complaint
deriving DecidableEq, Repr

/-- A diagnostic as it is shown. -/
def Diagnostic.text (d : Diagnostic) : String :=
  "[line " ++ toString d.line ++ "] Error" ++ d.location.text ++ ": " ++ d.complaint.message

/-- All errors found in a script, in the order of the source. -/
structure CompileError where
  diagnostics : List Diagnostic
deriving DecidableEq, Repr

/-- The diagnostics, one on a line. -/
def CompileError.message (e : CompileError) : String :=
  "\n".intercalate (e.diagnostics.map Diagnostic.text)

end EntityScript
