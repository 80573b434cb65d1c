/-
# Compiled functions

A function is a name, a number of parameters and a chunk: instructions with their source lines, and
the literals they refer to.  A literal can be a function again, so a program is its main function
together with the texts that occur in it.
-/
import EntityScript.Code.Instruction

namespace EntityScript

/-- What tells a compiled function from every other: the compilation it comes from and its number
there. -/
structure FunctionId where
  unit : Nat
  serial : Nat
deriving DecidableEq, Repr, Inhabited, Ord

/-- An instruction and the source line it was written for. -/
structure Placed where
  instruction : Instruction
  line : Nat
deriving DecidableEq, Repr, Inhabited

mutual

/-- A constant of a function. -/
inductive Literal where
  | int (n : Int64)
  /-- A double, by its bits. -/
  | float (bits : UInt64)
  | string (text : String)
  | function (f : Function)

/-- Instructions with their lines, and the literals that they refer to by index. -/
structure Chunk where
  code : Array Placed
  literals : List Literal

/-- A compiled function; the main function of a script has no name. -/
structure Function where
  id : FunctionId
  name : Option String
  arity : Nat
  chunk : Chunk

end

instance : Inhabited Chunk := ⟨⟨#[], []⟩⟩
instance : Inhabited Literal := ⟨.int 0⟩
instance : Inhabited Function := ⟨⟨default, none, 0, default⟩⟩

/-- The most literals that one function can have. -/
def maxLiterals : Nat := 256

/-- Why a chunk could not be changed. -/
inductive ChunkError where
  /-- The literals are full. -/
  | tooManyLiterals
  /-- There is no forward jump at this place. -/
  | notAJump (place : Nat)
deriving DecidableEq, Repr

/-- The wording of a chunk error. -/
def ChunkError.message : ChunkError → String
  | .tooManyLiterals => "Too many literals in one function."
  | .notAJump place => "No jump to patch at instruction " ++ toString place ++ "."

namespace Literal

/-- Whether two literals are the same constant: doubles bit for bit, which tells apart the two zeros
and the signs of what is not a number; functions by identity. -/
def same : Literal → Literal → Bool
  | .int m, .int n => m == n
  | .float x, .float y => x == y
  | .string s, .string t => s == t
  | .function f, .function g => f.id == g.id
  | _, _ => false

/-- Whether a literal is the given text. -/
def isString (text : String) : Literal → Bool
  | .string s => s == text
  | _ => false

/-- The function that a literal is. -/
def function? : Literal → Option Function
  | .function f => some f
  | _ => none

/-- Adds a literal at the end of a list that is not full; gives its index. -/
def push (literals : List Literal) (l : Literal) : Except ChunkError (Nat × List Literal) :=
  if literals.length < maxLiterals then .ok (literals.length, literals ++ [l])
  else .error .tooManyLiterals

/-- The index of the first literal that is the given text. -/
def indexOfString? (literals : List Literal) (text : String) : Option Nat :=
  literals.findIdx? (isString text)

end Literal

namespace Chunk

/-- A chunk without instructions. -/
def empty : Chunk := ⟨#[], []⟩

/-- Adds an instruction at the end. -/
def write (c : Chunk) (i : Instruction) (line : Nat) : Chunk :=
  { c with code := c.code.push ⟨i, line⟩ }

/-- Adds a literal and gives its index. -/
def addLiteral (c : Chunk) (l : Literal) : Except ChunkError (Nat × Chunk) :=
  (Literal.push c.literals l).map fun (index, literals) => (index, { c with literals := literals })

/-- Sets the offset of a forward jump. -/
def patchJump (c : Chunk) (place offset : Nat) : Except ChunkError Chunk :=
  match c.code[place]? with
  | some ⟨.jump _, line⟩ => .ok { c with code := c.code.setIfInBounds place ⟨.jump offset, line⟩ }
  | some ⟨.jumpIfFalse _, line⟩ =>
    .ok { c with code := c.code.setIfInBounds place ⟨.jumpIfFalse offset, line⟩ }
  | _ => .error (.notAJump place)

/-- The instruction at a place. -/
def instruction? (c : Chunk) (place : Nat) : Option Instruction :=
  c.code[place]?.map Placed.instruction

theorem instruction?_eq (c : Chunk) (place : Nat) :
    c.instruction? place = c.code.toList[place]?.map Placed.instruction := by
  rw [instruction?, Array.getElem?_toList]

theorem instruction?_of_getElem? {c : Chunk} {place : Nat} {p : Placed}
    (h : c.code.toList[place]? = some p) :
    c.instruction? place = some p.instruction := by
  rw [instruction?_eq, h]
  rfl

/-- An instruction that is read is placed there, on some line. -/
theorem instruction?_eq_some {c : Chunk} {place : Nat} {i : Instruction}
    (h : c.instruction? place = some i) :
    ∃ p, c.code.toList[place]? = some p ∧ p.instruction = i := by
  rw [instruction?_eq] at h
  exact Option.map_eq_some_iff.mp h

/-- The source line of the instruction at a place. -/
def line? (c : Chunk) (place : Nat) : Option Nat :=
  c.code[place]?.map Placed.line

/-- The literal with an index. -/
def literal? (c : Chunk) (index : Nat) : Option Literal :=
  c.literals[index]?

end Chunk

namespace Function

/-- What a function is called in an error message. -/
def displayName (f : Function) : String :=
  f.name.getD "unnamed script"

/-- A function as it is printed. -/
def text (f : Function) : String :=
  match f.name with
  | none => "<script>"
  | some name => "<fn " ++ name ++ ">"

end Function

/-- A literal as it is listed. -/
def Literal.text : Literal → String
  | .int n => toString n.toInt
  | .float bits => Decimal.render (Float.ofBits bits)
  | .string s => "\"" ++ s ++ "\""
  | .function f => f.text

/-- A compiled script: the function that runs it, and every text among the literals of its
functions, each once, in order of first use. -/
structure Program where
  main : Function
  strings : List String
deriving Inhabited

namespace Program

/-- The functions declared at the top level of a script, in order. -/
def functions (p : Program) : List Function :=
  p.main.chunk.literals.filterMap Literal.function?

/-- The first top-level function with a given name. -/
def function? (p : Program) (name : String) : Option Function :=
  p.functions.find? fun f => f.name == some name

end Program

end EntityScript
