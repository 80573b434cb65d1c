/-
# The functions of a program

A function together with all functions among its literals, and among theirs.
-/
import EntityScript.Proofs.Tree.Fits

namespace EntityScript

mutual

/-- A function and all functions inside it. -/
def Function.family : Function → List Function
  | ⟨id, name, arity, chunk⟩ => ⟨id, name, arity, chunk⟩ :: chunk.family

/-- All functions inside a chunk. -/
def Chunk.family : Chunk → List Function
  | ⟨_, literals⟩ => Literal.familyAll literals

/-- All functions inside a literal. -/
def Literal.family : Literal → List Function
  | .function f => f.family
  | .int _ => []
  | .float _ => []
  | .string _ => []

/-- All functions inside several literals. -/
def Literal.familyAll : List Literal → List Function
  | [] => []
  | l :: ls => l.family ++ Literal.familyAll ls

end

/-- A function is made of one of these bodies, which fits it. -/
def Function.MadeOf (f : Function) (bodies : List Block) : Prop :=
  ∃ body ∈ bodies, body.Fits (1 + f.arity) f.chunk.literals ∧
    ∃ lastLine, f = .ofBody f.id f.name f.arity f.chunk.literals body lastLine

/-- More bodies may be named than a function is made of. -/
theorem Function.MadeOf.mono {f : Function} {bs cs : List Block} (h : f.MadeOf bs) (hs : bs ⊆ cs) :
    f.MadeOf cs := by
  obtain ⟨body, hb, hfits⟩ := h
  exact ⟨body, hs hb, hfits⟩

/-- The family of a function is the function itself and the families of its literals. -/
theorem Function.family_eq (f : Function) :
    f.family = f :: Literal.familyAll f.chunk.literals := by
  obtain ⟨id, name, arity, code, literals⟩ := f
  simp [Function.family, Chunk.family]

theorem Function.self_mem_family (f : Function) : f ∈ f.family := by
  rw [f.family_eq]
  exact List.mem_cons_self

namespace Literal

/-- The families of literals that are added come behind the others. -/
theorem familyAll_append (ls more : List Literal) :
    familyAll (ls ++ more) = familyAll ls ++ familyAll more := by
  induction ls with
  | nil => rfl
  | cons l ls ih => simp [familyAll, ih]

/-- Literals that are no functions have no family. -/
theorem familyAll_of_plain {ls : List Literal} (h : ∀ l ∈ ls, l.function? = none) :
    familyAll ls = [] := by
  induction ls with
  | nil => rfl
  | cons l ls ih =>
    have hl := h l List.mem_cons_self
    rw [familyAll, ih (fun l' hl' => h l' (List.mem_cons_of_mem l hl')), List.append_nil]
    cases l with
    | function f => simp [Literal.function?] at hl
    | int n | float x | string s => rfl

/-- The functions inside a literal are inside the list it is in. -/
theorem family_subset_familyAll {l : Literal} {ls : List Literal} (h : l ∈ ls) :
    l.family ⊆ familyAll ls := by
  induction ls with
  | nil => simp at h
  | cons l' ls ih =>
    rw [familyAll]
    rcases List.mem_cons.mp h with rfl | h
    · exact List.subset_append_left _ _
    · exact List.subset_append_of_subset_right _ (ih h)

/-- A function inside a list is inside one of its literals. -/
theorem exists_of_mem_familyAll {g : Function} {ls : List Literal} (h : g ∈ familyAll ls) :
    ∃ l ∈ ls, g ∈ l.family := by
  induction ls with
  | nil => cases h
  | cons l ls ih =>
    rcases List.mem_append.mp h with h | h
    · exact ⟨l, List.mem_cons_self, h⟩
    · obtain ⟨l', hl', hg⟩ := ih h
      exact ⟨l', List.mem_cons_of_mem l hl', hg⟩

end Literal

mutual

/-- What is inside a function of the family is inside the family. -/
theorem Function.family_subset {f g : Function} (h : g ∈ f.family) : g.family ⊆ f.family := by
  match f with
  | ⟨id, name, arity, chunk⟩ =>
    rw [Function.family] at h
    rcases List.mem_cons.mp h with rfl | h
    · exact fun _ hx => hx
    · rw [Function.family]
      exact List.subset_cons_of_subset _ (Chunk.family_subset h)

/-- A function in a chunk has its own family there. -/
theorem Chunk.family_subset {c : Chunk} {g : Function} (h : g ∈ c.family) :
    g.family ⊆ c.family := by
  match c with
  | ⟨code, literals⟩ => exact Literal.familyAll_subset h

theorem Literal.family_subset {l : Literal} {g : Function} (h : g ∈ l.family) :
    g.family ⊆ l.family := by
  match l with
  | .function f => exact Function.family_subset (f := f) h

theorem Literal.familyAll_subset {ls : List Literal} {g : Function} (h : g ∈ Literal.familyAll ls) :
    g.family ⊆ Literal.familyAll ls := by
  match ls with
  | l :: ls =>
    rw [Literal.familyAll] at h ⊢
    rcases List.mem_append.mp h with h | h
    · exact List.subset_append_of_subset_left _ (Literal.family_subset h)
    · exact List.subset_append_of_subset_right _ (Literal.familyAll_subset h)

end

end EntityScript
