import EntityScript.Catalog
import EntityScript.Code.Function
import EntityScript.Code.Instruction
import EntityScript.Code.Listing
import EntityScript.CommandLine
import EntityScript.Compile.Diagnostic
import EntityScript.Compile.Expression
import EntityScript.Compile.ParseState
import EntityScript.Compile.Program
import EntityScript.Compile.Scope
import EntityScript.Compile.Statement
import EntityScript.Component
import EntityScript.Decimal.Plain
import EntityScript.Decimal.Reader
import EntityScript.Decimal.Shortest
import EntityScript.Decimal.Whole
import EntityScript.Files
import EntityScript.Geometry
import EntityScript.Heap
import EntityScript.Host.Basic
import EntityScript.Host.Builtins
import EntityScript.Journal
import EntityScript.Machine.Basic
import EntityScript.Machine.Fault
import EntityScript.Machine.Run
import EntityScript.Machine.Step
import EntityScript.Main
import EntityScript.Pool
import EntityScript.Proofs.Code.Balance
import EntityScript.Proofs.Code.Depth
import EntityScript.Proofs.Code.Globals
import EntityScript.Proofs.Code.Jumps
import EntityScript.Proofs.Code.Pauses
import EntityScript.Proofs.Code.Shape
import EntityScript.Proofs.Compile.Acceptance
import EntityScript.Proofs.Compile.Ending
import EntityScript.Proofs.Compile.Errors
import EntityScript.Proofs.Compile.Exports
import EntityScript.Proofs.Compile.ExprCompleteness
import EntityScript.Proofs.Compile.ExprSoundness
import EntityScript.Proofs.Compile.Including
import EntityScript.Proofs.Compile.Layout
import EntityScript.Proofs.Compile.Library
import EntityScript.Proofs.Compile.Recovery
import EntityScript.Proofs.Compile.Relabel
import EntityScript.Proofs.Compile.Relabelling
import EntityScript.Proofs.Compile.State
import EntityScript.Proofs.Compile.StmtCompleteness
import EntityScript.Proofs.Compile.StmtSoundness
import EntityScript.Proofs.Compile.Widening
import EntityScript.Proofs.Component.Accounting
import EntityScript.Proofs.Component.Alone
import EntityScript.Proofs.Component.Isolation
import EntityScript.Proofs.Decimal.Exact
import EntityScript.Proofs.Decimal.Nearest
import EntityScript.Proofs.Machine.Alignment
import EntityScript.Proofs.Machine.Alongside
import EntityScript.Proofs.Machine.Calls
import EntityScript.Proofs.Machine.Canonical
import EntityScript.Proofs.Machine.Comparison
import EntityScript.Proofs.Machine.Correctness
import EntityScript.Proofs.Machine.Correspondence
import EntityScript.Proofs.Machine.Effect
import EntityScript.Proofs.Machine.Evaluation
import EntityScript.Proofs.Machine.Execution
import EntityScript.Proofs.Machine.Faults
import EntityScript.Proofs.Machine.Following
import EntityScript.Proofs.Machine.Heap
import EntityScript.Proofs.Machine.Included
import EntityScript.Proofs.Machine.Instructions
import EntityScript.Proofs.Machine.Invocation
import EntityScript.Proofs.Machine.Keeping
import EntityScript.Proofs.Machine.Lifecycle
import EntityScript.Proofs.Machine.Lockstep
import EntityScript.Proofs.Machine.Mirror
import EntityScript.Proofs.Machine.Names
import EntityScript.Proofs.Machine.Numbering
import EntityScript.Proofs.Machine.Offering
import EntityScript.Proofs.Machine.Operators
import EntityScript.Proofs.Machine.Parts
import EntityScript.Proofs.Machine.Pausing
import EntityScript.Proofs.Machine.Primitives
import EntityScript.Proofs.Machine.Progress
import EntityScript.Proofs.Machine.Reachability
import EntityScript.Proofs.Machine.Requests
import EntityScript.Proofs.Machine.Safety
import EntityScript.Proofs.Machine.Sides
import EntityScript.Proofs.Machine.Surroundings
import EntityScript.Proofs.Machine.Thrift
import EntityScript.Proofs.Machine.Traces
import EntityScript.Proofs.Machine.Twins
import EntityScript.Proofs.Machine.Watch
import EntityScript.Proofs.Pool.Generations
import EntityScript.Proofs.Pool.Invariant
import EntityScript.Proofs.Pool.Slots
import EntityScript.Proofs.Script.Accompanying
import EntityScript.Proofs.Script.Basic
import EntityScript.Proofs.Script.Declaring
import EntityScript.Proofs.Script.Elaborate
import EntityScript.Proofs.Script.Fitting
import EntityScript.Proofs.Script.Gathering
import EntityScript.Proofs.Script.Globals
import EntityScript.Proofs.Script.Grammar
import EntityScript.Proofs.Script.Lines
import EntityScript.Proofs.Script.Linking
import EntityScript.Proofs.Script.Meaning
import EntityScript.Proofs.Script.Relining
import EntityScript.Proofs.Script.Resolution
import EntityScript.Proofs.Script.Simulation
import EntityScript.Proofs.Script.Splitting
import EntityScript.Proofs.Script.Standing
import EntityScript.Proofs.Script.Yields
import EntityScript.Proofs.Token.Joining
import EntityScript.Proofs.Token.Lexemes
import EntityScript.Proofs.Token.Respacing
import EntityScript.Proofs.Token.Scanning
import EntityScript.Proofs.Token.Yields
import EntityScript.Proofs.Tree.Family
import EntityScript.Proofs.Tree.Fits
import EntityScript.Proofs.Tree.Postorder
import EntityScript.Proofs.Value.Arithmetic
import EntityScript.Proofs.Value.Comparison
import EntityScript.Proofs.Value.Conversion
import EntityScript.Proofs.Value.Plain
import EntityScript.Text.Blank
import EntityScript.Token.Basic
import EntityScript.Token.Scanner
import EntityScript.Tree.Assembly
import EntityScript.Tree.Basic
import EntityScript.Value.Arithmetic
import EntityScript.Value.Basic
