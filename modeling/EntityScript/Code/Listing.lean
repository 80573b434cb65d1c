/-
# Listings

The readable form of compiled code: one line for an instruction, a titled list for a chunk, and for
a function its own list followed by those of the functions nested in it.
-/
import EntityScript.Code.Function

namespace EntityScript

/-- A place in a chunk, in a column of four digits. -/
def placeText (place : Nat) : String :=
  "i" ++ padLeft 4 '0' (toString place)

/-- What a listing adds to an instruction: the literal it names, or the place it jumps to. -/
def Chunk.remark (c : Chunk) (place : Nat) : Instruction → String
  | .literal i | .defineGlobal i | .getGlobal i | .setGlobal i | .setGlobalMember i _ =>
    match c.literal? i with
    | some l => " '" ++ l.text ++ "'"
    | none => " <bad literal>"
  | .jump o | .jumpIfFalse o => " -> " ++ placeText (place + 1 + o)
  | .loop o => " -> " ++ placeText (place + 1 - o)
  | _ => ""

/-- The line of a listing for one instruction. -/
def Chunk.listInstruction (c : Chunk) (place : Nat) : String :=
  match c.code[place]? with
  | some ⟨i, line⟩ =>
    placeText place ++ " " ++ padLeft 4 '0' (toString line) ++ " " ++ i.text ++ c.remark place i
  | none => placeText place ++ " <out of range>"

/-- The listing of a chunk. -/
def Chunk.listing (c : Chunk) (title : String) : String :=
  (List.range c.code.size).foldl (fun text place => text ++ c.listInstruction place ++ "\n")
    ("== " ++ title ++ " ==\n")

/-- The title of a function's listing. -/
def Function.title (f : Function) : String :=
  match f.name with
  | some name => name ++ "/" ++ toString f.arity
  | none => "<script>"

mutual

/-- The listing of a function, then those of the functions nested in it. -/
def Function.listing : Function → String
  | ⟨id, name, arity, chunk⟩ =>
    chunk.listing (Function.title ⟨id, name, arity, chunk⟩) ++ chunk.nested

/-- The listings of the functions among the literals of a chunk. -/
def Chunk.nested : Chunk → String
  | ⟨_, literals⟩ => Literal.listings literals

/-- The listings of the functions in a list of literals. -/
def Literal.listings : List Literal → String
  | [] => ""
  | .function f :: rest => f.listing ++ Literal.listings rest
  | .int _ :: rest => Literal.listings rest
  | .float _ :: rest => Literal.listings rest
  | .string _ :: rest => Literal.listings rest

end

/-- The listing of a program. -/
def Program.listing (p : Program) : String :=
  p.main.listing

end EntityScript
