/-
# Functions apart from their lines

Two functions do the same if they differ only in the lines of their instructions and in the places
of their literals.  The shape of a function has neither: it is its code with the literals themselves
in place of their indices (`Function.shape`).  The numbers of functions are taken through a
renaming, so that functions of different compilations can have the same shape.

While code is written, literals are added behind those that are there.  Pieces of code whose shapes
stay the same whatever is added (`SameCode`) can be put together one after the other.
-/
import EntityScript.Proofs.Code.Depth
import EntityScript.Proofs.Tree.Family

namespace EntityScript

/-- A literal, with the functions in it apart from their lines and from the places of their
literals. -/
inductive Shape where
  | int (n : Int64)
  | float (bits : UInt64)
  | string (text : String)
  | function (id : FunctionId) (name : Option String) (arity : Nat)
    (code : List (Instruction × Option Shape))

/-- An instruction that names another literal. -/
def Instruction.naming (index : Nat) : Instruction → Instruction
  | .literal _ => .literal index
  | .defineGlobal _ => .defineGlobal index
  | .getGlobal _ => .getGlobal index
  | .setGlobal _ => .setGlobal index
  | .setGlobalMember _ m => .setGlobalMember index m
  | instruction => instruction

/-- An instruction together with the literal that it names, if it names one. -/
def Instruction.shape (shapes : List Shape) (instruction : Instruction) :
    Instruction × Option Shape :=
  (instruction.naming 0, instruction.literal?.bind (shapes[·]?))

mutual

/-- A function, with its number and those of the functions inside it taken through a renaming. -/
def Function.shape (ρ : FunctionId → FunctionId) : Function → Shape
  | ⟨id, name, arity, chunk⟩ => .function (ρ id) name arity (chunk.shape ρ)

/-- The instructions of a chunk. -/
def Chunk.shape (ρ : FunctionId → FunctionId) : Chunk → List (Instruction × Option Shape)
  | ⟨code, literals⟩ => code.toList.map fun p => p.instruction.shape (Literal.shapes ρ literals)

def Literal.shape (ρ : FunctionId → FunctionId) : Literal → Shape
  | .int n => .int n
  | .float bits => .float bits
  | .string text => .string text
  | .function f => f.shape ρ

def Literal.shapes (ρ : FunctionId → FunctionId) : List Literal → List Shape
  | [] => []
  | l :: ls => l.shape ρ :: Literal.shapes ρ ls

end

/-- Some code, whose literals are found in a list. -/
def codeShape (ρ : FunctionId → FunctionId) (ls : List Literal) (code : List Placed) :
    List (Instruction × Option Shape) :=
  code.map fun p => p.instruction.shape (Literal.shapes ρ ls)

section

variable {ρ ρ' : FunctionId → FunctionId} {ls ls' : List Literal} {a a' b b' : List Placed}

theorem Literal.shapes_eq (ρ : FunctionId → FunctionId) (ls : List Literal) :
    Literal.shapes ρ ls = ls.map (Literal.shape ρ) := by
  induction ls with
  | nil => rfl
  | cons l ls ih => rw [Literal.shapes, ih, List.map_cons]

@[simp] theorem Literal.shapes_append (ρ : FunctionId → FunctionId) (ls more : List Literal) :
    Literal.shapes ρ (ls ++ more) = Literal.shapes ρ ls ++ Literal.shapes ρ more := by
  rw [Literal.shapes_eq, Literal.shapes_eq, Literal.shapes_eq, List.map_append]

@[simp] theorem Literal.length_shapes (ρ : FunctionId → FunctionId) (ls : List Literal) :
    (Literal.shapes ρ ls).length = ls.length := by
  rw [Literal.shapes_eq, List.length_map]

theorem Literal.getElem?_shapes (ρ : FunctionId → FunctionId) (ls : List Literal) (i : Nat) :
    (Literal.shapes ρ ls)[i]? = ls[i]?.map (Literal.shape ρ) := by
  rw [Literal.shapes_eq, List.getElem?_map]

/-- A text is among the shapes if it is among the literals. -/
theorem Literal.string_mem_shapes {x : String} : Shape.string x ∈ Literal.shapes ρ ls ↔
    Literal.string x ∈ ls := by
  rw [Literal.shapes_eq, List.mem_map]
  constructor
  · rintro ⟨l, hl, hx⟩
    match l with
    | .string y =>
      obtain rfl := Shape.string.inj hx
      exact hl
    | .int _ | .float _ => cases hx
    | .function ⟨_, _, _, _⟩ =>
      rw [Literal.shape, Function.shape] at hx
      cases hx
  · exact fun hx => ⟨_, hx, rfl⟩

/-- The shape of a function is its number, name and arity, and its code with the literals in place.
-/
theorem Function.shape_eq (ρ : FunctionId → FunctionId) (f : Function) :
    f.shape ρ =
      .function (ρ f.id) f.name f.arity (codeShape ρ f.chunk.literals f.chunk.code.toList) := by
  match f with
  | ⟨id, name, arity, ⟨code, literals⟩⟩ => rw [Function.shape, Chunk.shape, codeShape]

/-! ## Renamings -/

mutual

/-- Only the numbers of the function and of those inside it matter. -/
theorem Function.shape_congr (f : Function) (h : ∀ g ∈ f.family, ρ g.id = ρ' g.id) :
    f.shape ρ = f.shape ρ' := by
  match f with
  | ⟨id, name, arity, ⟨code, literals⟩⟩ =>
    rw [Function.shape, Function.shape, Chunk.shape, Chunk.shape, h _ (Function.self_mem_family _),
      Literal.shapes_congr literals fun g hg =>
      h g (by rw [Function.family_eq]; exact List.mem_cons_of_mem _ hg)]

/-- Two renamings that agree on the functions inside a literal give it the same shape. -/
theorem Literal.shape_congr (l : Literal) (h : ∀ g ∈ l.family, ρ g.id = ρ' g.id) :
    l.shape ρ = l.shape ρ' := by
  match l with
  | .int _ | .float _ | .string _ => rfl
  | .function f => exact f.shape_congr h

theorem Literal.shapes_congr (ls : List Literal)
    (h : ∀ g ∈ Literal.familyAll ls, ρ g.id = ρ' g.id) :
    Literal.shapes ρ ls = Literal.shapes ρ' ls := by
  match ls with
  | [] => rfl
  | l :: ls =>
    rw [Literal.shapes, Literal.shapes, l.shape_congr fun g hg => h g (List.mem_append_left _ hg),
      Literal.shapes_congr ls fun g hg => h g (List.mem_append_right _ hg)]

end

/-! ## Code -/

theorem codeShape_append (ρ : FunctionId → FunctionId) (ls : List Literal) (a b : List Placed) :
    codeShape ρ ls (a ++ b) = codeShape ρ ls a ++ codeShape ρ ls b :=
  List.map_append

@[simp] theorem length_codeShape (ρ : FunctionId → FunctionId) (ls : List Literal)
    (a : List Placed) :
    (codeShape ρ ls a).length = a.length :=
  List.length_map _

/-- Pieces of code that do the same, whatever literals are added. -/
def SameCode (ρ ρ' : FunctionId → FunctionId) (ls ls' : List Literal) (a a' : List Placed) : Prop :=
  ∀ more more', codeShape ρ (ls ++ more) a = codeShape ρ' (ls' ++ more') a'

namespace SameCode

theorem nil : SameCode ρ ρ' ls ls' [] [] :=
  fun _ _ => rfl

/-- Pieces that are the same are the same one after the other. -/
theorem append (ha : SameCode ρ ρ' ls ls' a a') (hb : SameCode ρ ρ' ls ls' b b') :
    SameCode ρ ρ' ls ls' (a ++ b) (a' ++ b') := by
  intro more more'
  rw [codeShape_append, codeShape_append, ha, hb]

/-- Pieces that are the same stay the same when literals are added. -/
theorem mono {ms ms' : List Literal} (h : SameCode ρ ρ' ls ls' a a') (hls : ls <+: ms)
    (hls' : ls' <+: ms') :
    SameCode ρ ρ' ms ms' a a' := by
  obtain ⟨new, rfl⟩ := hls
  obtain ⟨new', rfl⟩ := hls'
  intro more more'
  rw [List.append_assoc, List.append_assoc]
  exact h _ _

/-- Pieces that are the same have equal shapes. -/
theorem eq (h : SameCode ρ ρ' ls ls' a a') : codeShape ρ ls a = codeShape ρ' ls' a' := by
  have hnil := h [] []
  rwa [List.append_nil, List.append_nil] at hnil

/-- Pieces that are the same have equal lengths. -/
theorem length_eq (h : SameCode ρ ρ' ls ls' a a') : a'.length = a.length := by
  have hlength := congrArg List.length h.eq
  rw [length_codeShape, length_codeShape] at hlength
  exact hlength.symm

/-- An instruction that names no literal. -/
theorem plain {instruction : Instruction} (h : instruction.literal? = none) (line line' : Nat) :
    SameCode ρ ρ' ls ls' [⟨instruction, line⟩] [⟨instruction, line'⟩] := by
  intro more more'
  simp [codeShape, Instruction.shape, h]

/-- Instructions that name no literal are the same on any lines. -/
theorem onLine {is : List Instruction} (h : ∀ instruction ∈ is, instruction.literal? = none)
    (line line' : Nat) :
    SameCode ρ ρ' ls ls' (placeOn line is) (placeOn line' is) := by
  induction is with
  | nil => exact nil
  | cons instruction is ih =>
    exact append (a := [⟨instruction, line⟩]) (plain (h _ List.mem_cons_self) line line')
      (ih fun i hi => h i (List.mem_cons_of_mem _ hi))

/-- An instruction that names no literal is the same any number of times. -/
theorem replicate {instruction : Instruction} (h : instruction.literal? = none)
    (n line line' : Nat) :
    SameCode ρ ρ' ls ls' (List.replicate n ⟨instruction, line⟩)
      (List.replicate n ⟨instruction, line'⟩) := by
  induction n with
  | zero => exact nil
  | succ n ih =>
    have hone : SameCode ρ ρ' ls ls' [⟨instruction, line⟩] [⟨instruction, line'⟩] :=
      plain h line line'
    exact hone.append ih

/-- Instructions of one kind that name literals that are the same. -/
theorem naming {instruction : Instruction} {index index' : Nat} {l l' : Literal}
    (hindex : ∀ i, (instruction.naming i).literal? = some i) (hl : ls[index]? = some l)
    (hl' : ls'[index']? = some l') (hshape : l.shape ρ = l'.shape ρ') (line line' : Nat) :
    SameCode ρ ρ' ls ls' [⟨instruction.naming index, line⟩]
    [⟨instruction.naming index', line'⟩] := by
  intro more more'
  have hget : (Literal.shapes ρ (ls ++ more))[index]? = some (l.shape ρ) := by
    rw [Literal.getElem?_shapes, List.getElem?_append_left (List.getElem?_eq_some_iff.mp hl).1, hl]
    rfl
  have hget' : (Literal.shapes ρ' (ls' ++ more'))[index']? = some (l.shape ρ) := by
    rw [Literal.getElem?_shapes, List.getElem?_append_left (List.getElem?_eq_some_iff.mp hl').1,
      hl', hshape]
    rfl
  have hnaming : (instruction.naming index).naming 0 = (instruction.naming index').naming 0 := by
    cases instruction <;> rfl
  simp only [codeShape, Instruction.shape, List.map_cons, List.map_nil, hindex, Option.bind_some,
    hget, hget', hnaming]

/-- Two instructions that load literals of the same shape are the same. -/
theorem literal {index index' : Nat} {l l' : Literal} (hl : ls[index]? = some l)
    (hl' : ls'[index']? = some l') (hshape : l.shape ρ = l'.shape ρ') (line line' : Nat) :
    SameCode ρ ρ' ls ls' [⟨.literal index, line⟩] [⟨.literal index', line'⟩] :=
  @naming _ _ _ _ (.literal 0) _ _ _ _ (fun _ => rfl) hl hl' hshape line line'

/-- The function of a body that does the same, with the same number after renaming. -/
theorem ofBody {id id' : FunctionId} {b b' : Block} (hid : ρ id = ρ' id')
    (hb : SameCode ρ ρ' ls ls' b.postorder b'.postorder) (name : Option String)
    (arity line line' : Nat) :
    (Function.ofBody id name arity ls b line).shape ρ =
    (Function.ofBody id' name arity ls' b' line').shape ρ' := by
  have hends : SameCode ρ ρ' ls ls' (placeOn line [.nil, .ret]) (placeOn line' [.nil, .ret]) :=
    onLine (by decide) line line'
  have hcode := (hb.append hends).eq
  rw [Function.shape_eq, Function.shape_eq]
  show Shape.function (ρ id) name arity (codeShape ρ ls _) =
    Shape.function (ρ' id') name arity (codeShape ρ' ls' _)
  rw [hid]
  exact congrArg _ hcode

end SameCode

end

end EntityScript
