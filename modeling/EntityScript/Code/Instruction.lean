/-
# Instructions

The instructions of the stack machine.  An operand that names a literal is an index into the
literals of the function the instruction belongs to; an operand that names a local is a position
counted from the function's place on the stack; a jump counts instructions from the one after the
jump.
-/
import EntityScript.Value.Basic

namespace EntityScript

/-- An instruction of the machine. -/
inductive Instruction where
  /-- Push a literal. -/
  | literal (index : Nat)
  /-- Push nil. -/
  | nil
  /-- Push true. -/
  | yes
  /-- Push false. -/
  | no
  /-- Drop the top value. -/
  | pop
  /-- Pop the top value into the global named by a literal, which need not exist. -/
  | defineGlobal (index : Nat)
  /-- Push the global named by a literal. -/
  | getGlobal (index : Nat)
  /-- Store the top value in the existing global named by a literal, and keep it. -/
  | setGlobal (index : Nat)
  /-- Push a local. -/
  | getLocal (slot : Nat)
  /-- Store the top value in a local, and keep it. -/
  | setLocal (slot : Nat)
  /-- Replace the top value by one of its members. -/
  | getMember (member : Member)
  /-- Pop a number into a member of a global, and push what was stored. -/
  | setGlobalMember (index : Nat) (member : Member)
  /-- Pop a number into a member of a local, and push what was stored. -/
  | setLocalMember (slot : Nat) (member : Member)
  /-- Replace the two top values by whether they are equal. -/
  | equal
  /-- Replace the two top values by whether the lower is greater. -/
  | greater
  /-- Replace the two top values by whether the lower is less. -/
  | less
  /-- Replace the two top values by their sum. -/
  | add
  /-- Replace the two top values by the lower minus the top. -/
  | subtract
  /-- Replace the two top values by their product. -/
  | multiply
  /-- Replace the two top values by the lower over the top. -/
  | divide
  /-- Replace the top value by its logical opposite. -/
  | not
  /-- Replace the top value by its arithmetic opposite. -/
  | negate
  /-- Pop the top value and print it on a line of its own. -/
  | print
  /-- Skip forward. -/
  | jump (offset : Nat)
  /-- Skip forward if the top value is `false`; the value stays. -/
  | jumpIfFalse (offset : Nat)
  /-- Go back. -/
  | loop (offset : Nat)
  /-- Call the value that lies below this many arguments. -/
  | call (arguments : Nat)
  /-- Leave the function with the top value as its result. -/
  | ret
  /-- Pause the machine. -/
  | yield
  /-- Stop the whole script. -/
  | stop
deriving DecidableEq, Repr, Inhabited

/-- Pads a text on the left to a given width. -/
def padLeft (width : Nat) (fill : Char) (text : String) : String :=
  String.ofList (List.replicate (width - text.length) fill) ++ text

namespace Instruction

/-- An operand, right-aligned in a column of four. -/
def operand (n : Nat) : String :=
  padLeft 4 ' ' (toString n)

/-- An instruction as it is listed. -/
def text : Instruction → String
  | .literal i => "OP_LITERAL " ++ operand i
  | .nil => "OP_NIL"
  | .yes => "OP_TRUE"
  | .no => "OP_FALSE"
  | .pop => "OP_POP"
  | .defineGlobal i => "OP_DEFINE_GLOBAL " ++ operand i
  | .getGlobal i => "OP_GET_GLOBAL " ++ operand i
  | .setGlobal i => "OP_SET_GLOBAL " ++ operand i
  | .getLocal s => "OP_GET_LOCAL " ++ operand s
  | .setLocal s => "OP_SET_LOCAL " ++ operand s
  | .getMember m => "OP_GET_MEMBER ." ++ m.name
  | .setGlobalMember i m => "OP_SET_GLOBAL_MEMBER " ++ operand i ++ " ." ++ m.name
  | .setLocalMember s m => "OP_SET_LOCAL_MEMBER " ++ operand s ++ " ." ++ m.name
  | .equal => "OP_EQUAL"
  | .greater => "OP_GREATER"
  | .less => "OP_LESS"
  | .add => "OP_ADD"
  | .subtract => "OP_SUBTRACT"
  | .multiply => "OP_MULTIPLY"
  | .divide => "OP_DIVIDE"
  | .not => "OP_NOT"
  | .negate => "OP_NEGATE"
  | .print => "OP_PRINT"
  | .jump o => "OP_JUMP " ++ operand o
  | .jumpIfFalse o => "OP_JUMP_IF_FALSE " ++ operand o
  | .loop o => "OP_LOOP " ++ operand o
  | .call n => "OP_CALL " ++ operand n
  | .ret => "OP_RETURN"
  | .yield => "OP_YIELD"
  | .stop => "OP_END"

end Instruction

end EntityScript
