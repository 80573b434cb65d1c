/-
# Globals in code

Which globals some code needs and which it defines.  Code that defines none is `Quiet` if all that
it needs is known, by its own instructions or by the functions that it makes.  The code of a script
defines globals as it goes, so there a name has to be known at its place (`InOrder`): no jump leads
past the definition of a global, and what a function needs is there before the function can be
called.
-/
import EntityScript.Proofs.Code.Jumps
import EntityScript.Proofs.Tree.Family

namespace EntityScript

/-- The literal with the name of the global that an instruction reads or changes. -/
def Instruction.global? : Instruction → Option Nat
  | .getGlobal index | .setGlobal index | .setGlobalMember index _ => some index
  | _ => none

/-- The literal with the name of the global that an instruction defines. -/
def Instruction.definition? : Instruction → Option Nat
  | .defineGlobal index => some index
  | _ => none

/-- Some code reads or changes a global, with these literals. -/
def Needs (ls : List Literal) (code : List Placed) (x : String) : Prop :=
  ∃ p ∈ code, ∃ index, p.instruction.global? = some index ∧ ls[index]? = some (.string x)

/-- Some code defines a global, with these literals. -/
def Defines (ls : List Literal) (code : List Placed) (x : String) : Prop :=
  ∃ p ∈ code, ∃ index, p.instruction.definition? = some index ∧ ls[index]? = some (.string x)

/-- A function and all functions inside it need no other globals than these. -/
def Function.Within (f : Function) (known : String → Prop) : Prop :=
  ∀ g ∈ f.family, ∀ x, Needs g.chunk.literals g.chunk.code.toList x → known x

/-- The text that a literal is. -/
def Literal.string? : Literal → Option String
  | .string s => some s
  | _ => none

theorem Literal.string?_eq_some {l : Literal} {text : String} : l.string? = some text ↔
    l = .string text := by
  cases l <;> simp [string?]

/-- The names of the globals that some code reads or changes. -/
def needed (ls : List Literal) (code : List Placed) : List String :=
  code.filterMap fun p => p.instruction.global?.bind fun index => ls[index]?.bind Literal.string?

/-- The list of the names that some code needs has those names and no others. -/
theorem mem_needed {ls : List Literal} {code : List Placed} {x : String} :
    x ∈ needed ls code ↔ Needs ls code x := by
  simp only [needed, Needs, List.mem_filterMap, Option.bind_eq_some_iff, Literal.string?_eq_some,
    exists_eq_right]

instance (f : Function) (names : List String) : Decidable (f.Within (· ∈ names)) :=
  decidable_of_iff (∀ g ∈ f.family, ∀ x ∈ needed g.chunk.literals g.chunk.code.toList, x ∈ names)
    (by simp only [mem_needed, Function.Within])

/-- An instruction defines no global, and needs only known ones, also in a function that it
makes. -/
structure Instruction.Quiet (ls : List Literal) (known : String → Prop)
    (instruction : Instruction) : Prop where
  names : instruction.Names ls
  defines : instruction.definition? = none
  needs : ∀ index x, instruction.global? = some index → ls[index]? = some (.string x) → known x
  makes : ∀ index f, instruction = .literal index → ls[index]? = some (.function f) → f.Within known

/-- Some code defines no global, and needs only known ones. -/
def Quiet (ls : List Literal) (known : String → Prop) (code : List Placed) : Prop :=
  ∀ p ∈ code, p.instruction.Quiet ls known

/-- Some code needs only globals that are known or that it has defined before.  What a function that
it makes needs is there once the instruction after the function has been executed, which may give
the function its name. -/
structure InOrder (ls : List Literal) (known : String → Prop) (code : List Placed) : Prop where
  inward : Inward code
  names : ∀ p ∈ code, p.instruction.Names ls
  needs : ∀ i p x, code[i]? = some p → Needs ls [p] x → known x ∨ Defines ls (code.take i) x
  skips : ∀ i p j x, code[i]? = some p → j ∈ p.instruction.targets i → Defines ls (code.take j) x →
    Defines ls (code.take (i + 1)) x
  makes : ∀ i (p : Placed) index (f : Function), code[i]? = some p →
    p.instruction = .literal index →
    ls[index]? = some (.function f) → f.Within fun x => known x ∨ Defines ls (code.take (i + 2)) x

section

variable {ls rest : List Literal} {known known' : String → Prop} {a b code : List Placed}
  {i j : Nat} {x : String} {p : Placed}

/-! ## Names in pieces of code -/

theorem not_defines_nil : ¬ Defines ls [] x := by
  rintro ⟨p, hp, -⟩
  cases hp

theorem defines_append : Defines ls (a ++ b) x ↔ Defines ls a x ∨ Defines ls b x := by
  simp only [Defines, List.mem_append, or_and_right, exists_or]

theorem defines_singleton :
    Defines ls [p] x ↔ ∃ index, p.instruction.definition? = some index ∧
    ls[index]? = some (.string x) := by
  simp only [Defines, List.mem_singleton, exists_eq_left]

theorem needs_singleton :
    Needs ls [p] x ↔ ∃ index, p.instruction.global? = some index ∧
    ls[index]? = some (.string x) := by
  simp only [Needs, List.mem_singleton, exists_eq_left]

/-- What is defined up to the next place is defined before it, or by the instruction between. -/
theorem defines_take_succ (hp : code[i]? = some p) :
    Defines ls (code.take (i + 1)) x ↔ Defines ls (code.take i) x ∨ Defines ls [p] x := by
  rw [List.take_add_one, hp, Option.toList_some, defines_append]

/-- A literal that an instruction names is among the first ones, if all that it names are there. -/
theorem Instruction.Names.getElem? {instruction : Instruction} {index : Nat} {l : Literal}
    (h : instruction.Names ls)
    (hindex : instruction = .literal index ∨ instruction.global? = some index ∨
      instruction.definition? = some index)
    (hl : (ls ++ rest)[index]? = some l) : ls[index]? = some l := by
  have hthere : ∃ l', ls[index]? = some l' := by
    rcases hindex with rfl | hindex | hindex
    · exact h
    · cases instruction <;> cases hindex <;> exact h.imp' _ fun _ hname => hname
    · cases instruction <;> cases hindex
      exact h.imp' _ fun _ hname => hname
  obtain ⟨l', hl'⟩ := hthere
  rw [getElem?_append_of_some hl'] at hl
  rw [hl', Option.some.inj hl]

/-- Literals added behind those that are there take nothing away from an instruction. -/
theorem Instruction.Names.append {instruction : Instruction} (h : instruction.Names ls)
    (rest : List Literal) :
    instruction.Names (ls ++ rest) := by
  cases instruction with
  | literal | defineGlobal | getGlobal | setGlobal | setGlobalMember =>
    obtain ⟨l, hl⟩ := h
    exact ⟨l, getElem?_append_of_some hl⟩
  | nil | yes | no | pop | getLocal | setLocal | getMember | setLocalMember | equal | greater | less
  | add | subtract | multiply | divide | not | negate | print | jump | jumpIfFalse | loop | call
  | ret | yield | stop => trivial

/-- Further literals change nothing about which globals some code defines. -/
theorem defines_literals (h : ∀ p ∈ code, p.instruction.Names ls) :
    Defines (ls ++ rest) code x ↔ Defines ls code x := by
  constructor
  · rintro ⟨p, hp, index, hindex, hx⟩
    exact ⟨p, hp, index, hindex, (h p hp).getElem? (.inr (.inr hindex)) hx⟩
  · rintro ⟨p, hp, index, hindex, hx⟩
    exact ⟨p, hp, index, hindex, getElem?_append_of_some hx⟩

/-- Code whose own literals are there needs no name from literals that are added later. -/
theorem Needs.of_literals (h : ∀ p ∈ code, p.instruction.Names ls)
    (hx : Needs (ls ++ rest) code x) :
    Needs ls code x := by
  obtain ⟨p, hp, index, hindex, hx⟩ := hx
  exact ⟨p, hp, index, hindex, (h p hp).getElem? (.inr (.inl hindex)) hx⟩

/-- A function that keeps to some names keeps to any names that include them. -/
theorem Function.Within.mono {f : Function} (h : f.Within known) (hsub : ∀ x, known x → known' x) :
    f.Within known' :=
  fun g hg x hx => hsub x (h g hg x hx)

/-- A function among the literals of another one needs no more than it. -/
theorem Function.Within.literal {f g : Function} (h : f.Within known) {index : Nat}
    (hg : f.chunk.literals[index]? = some (.function g)) : g.Within known := by
  intro g' hg'
  refine h g' ?_
  rw [f.family_eq]
  exact List.mem_cons_of_mem _ (Literal.family_subset_familyAll (List.mem_of_getElem? hg) hg')

/-! ## Quiet code -/

theorem Instruction.Quiet.append {instruction : Instruction} (h : instruction.Quiet ls known)
    (rest : List Literal) : instruction.Quiet (ls ++ rest) known :=
  ⟨h.names.append rest, h.defines,
    fun index x hindex hx => h.needs index x hindex (h.names.getElem? (.inr (.inl hindex)) hx),
    fun index f hindex hf => h.makes index f hindex (h.names.getElem? (.inl hindex) hf)⟩

/-- An instruction that has nothing to do with literals is quiet. -/
theorem Instruction.quiet_of_plain {instruction : Instruction} (hnames : ∀ ls, instruction.Names ls)
    (hdefines : instruction.definition? = none) (hneeds : instruction.global? = none) :
    instruction.Quiet ls known := by
  refine ⟨hnames ls, hdefines, fun index x hindex => ?_, fun index f hindex => ?_⟩
  · rw [hneeds] at hindex
    cases hindex
  · subst hindex
    obtain ⟨l, hl⟩ := hnames []
    cases hl

theorem quiet_nil : Quiet ls known [] :=
  fun _ hp => absurd hp List.not_mem_nil

/-- A single instruction that defines nothing and needs only known names. -/
theorem quiet_singleton (h : p.instruction.Quiet ls known) : Quiet ls known [p] := by
  intro q hq
  obtain rfl := List.mem_singleton.mp hq
  exact h

namespace Quiet

theorem append (ha : Quiet ls known a) (hb : Quiet ls known b) : Quiet ls known (a ++ b) :=
  fun p hp => (List.mem_append.mp hp).elim (ha p) (hb p)

theorem literals (h : Quiet ls known code) (rest : List Literal) : Quiet (ls ++ rest) known code :=
  fun p hp => (h p hp).append rest

theorem needs (h : Quiet ls known code) (hx : Needs ls code x) : known x := by
  obtain ⟨p, hp, index, hindex, hx⟩ := hx
  exact (h p hp).needs index x hindex hx

theorem not_defines (h : Quiet ls known code) : ¬ Defines ls code x := by
  rintro ⟨p, hp, index, hindex, -⟩
  rw [(h p hp).defines] at hindex
  cases hindex

/-- A function with quiet code needs only what is known, if this holds of the functions among its
literals. -/
theorem within {f : Function} (h : Quiet f.chunk.literals known f.chunk.code.toList)
    (hinner : ∀ g, .function g ∈ f.chunk.literals → g.Within known) : f.Within known := by
  intro g hg x hx
  rw [f.family_eq] at hg
  rcases List.mem_cons.mp hg with rfl | hg
  · exact h.needs hx
  · obtain ⟨l, hl, hgl⟩ := Literal.exists_of_mem_familyAll hg
    cases l with
    | function f' => exact hinner f' hl g hgl x hx
    | int | float | string => exact absurd hgl List.not_mem_nil

end Quiet

/-! ## Code in order -/

/-- Code without jumps is in order if it needs only what is known before. -/
theorem inOrder_of_straight (hstraight : ∀ p ∈ code, p.instruction.isJump = false)
    (hnames : ∀ p ∈ code, p.instruction.Names ls) (hneeds : ∀ x, Needs ls code x → known x)
    (hmakes : ∀ i (p : Placed) index (f : Function),
      code[i]? = some p → p.instruction = .literal index →
      ls[index]? = some (.function f) → f.Within fun x => known x ∨
      Defines ls (code.take (i + 2)) x) :
    InOrder ls known code where
  inward := inward_of_straight hstraight
  names := hnames
  needs i p x hp hx := by
    obtain ⟨index, hindex⟩ := needs_singleton.mp hx
    exact .inl (hneeds x ⟨p, List.mem_of_getElem? hp, index, hindex⟩)
  skips i p j x hp hj hx := by
    rwa [Instruction.targets_of_not_jump (hstraight p (List.mem_of_getElem? hp)) hj] at hx
  makes := hmakes

/-- Quiet code is in order if its jumps stay in it. -/
theorem Quiet.inOrder (h : Quiet ls known code) (hinward : Inward code) :
    InOrder ls known code where
  inward := hinward
  names p hp := (h p hp).names
  needs i p x hp hx := by
    obtain ⟨index, hindex, hx⟩ := needs_singleton.mp hx
    exact .inl ((h p (List.mem_of_getElem? hp)).needs index x hindex hx)
  skips i p j x hp hj hx := by
    obtain ⟨q, hq, hx⟩ := hx
    exact absurd ⟨q, List.mem_of_mem_take hq, hx⟩ h.not_defines
  makes i p index f hp hindex hf :=
    ((h p (List.mem_of_getElem? hp)).makes index f hindex hf).mono fun _ => .inl

namespace InOrder

/-- What follows may need what the first piece defines. -/
theorem append (ha : InOrder ls known a) (hb : InOrder ls (fun x => known x ∨ Defines ls a x) b) :
    InOrder ls known (a ++ b) := by
  -- what stands before a place of the first piece, and before one of the second
  have hfirst : ∀ {i}, i ≤ a.length →
    (a ++ b).take i = a.take i := fun hi => List.take_append_of_le_length hi
  have hthen : ∀ k, (a ++ b).take (a.length + k) = a ++ b.take k := List.take_length_add_append
  refine ⟨ha.inward.append hb.inward,
    fun p hp => (List.mem_append.mp hp).elim (ha.names p) (hb.names p),
    fun i p x hp hx => ?_, fun i p j x hp hj hx => ?_, fun i p index f hp hindex hf => ?_⟩
  all_goals by_cases hi : i < a.length
  · rw [List.getElem?_append_left hi] at hp
    rw [hfirst (Nat.le_of_lt hi)]
    exact ha.needs i p x hp hx
  · obtain ⟨k, rfl⟩ := Nat.exists_eq_add_of_le (Nat.le_of_not_lt hi)
    rw [List.getElem?_append_right (Nat.le_add_right _ _), Nat.add_sub_cancel_left] at hp
    rw [hthen, defines_append, ← or_assoc]
    exact hb.needs k p x hp hx
  · rw [List.getElem?_append_left hi] at hp
    rw [hfirst ((ha.inward i p hp).1 j hj)] at hx
    rw [hfirst hi]
    exact ha.skips i p j x hp hj hx
  · obtain ⟨k, rfl⟩ := Nat.exists_eq_add_of_le (Nat.le_of_not_lt hi)
    rw [List.getElem?_append_right (Nat.le_add_right _ _), Nat.add_sub_cancel_left] at hp
    obtain ⟨j', rfl, hj'⟩ := targets_add (hb.inward k p hp).2 hj
    rw [hthen, defines_append] at hx
    rw [Nat.add_assoc, hthen, defines_append]
    exact hx.imp_right (hb.skips k p j' x hp hj')
  · rw [List.getElem?_append_left hi] at hp
    refine (ha.makes i p index f hp hindex hf).mono fun x hx => hx.imp_right fun hx => ?_
    rw [List.take_append]
    exact defines_append.mpr (.inl hx)
  · obtain ⟨k, rfl⟩ := Nat.exists_eq_add_of_le (Nat.le_of_not_lt hi)
    rw [List.getElem?_append_right (Nat.le_add_right _ _), Nat.add_sub_cancel_left] at hp
    refine (hb.makes k p index f hp hindex hf).mono fun x hx => ?_
    rw [Nat.add_assoc, hthen, defines_append, ← or_assoc]
    exact hx

/-- Code in order stays in order if more names are known before it. -/
theorem mono (h : InOrder ls known code) (hsub : ∀ x, known x → known' x) :
    InOrder ls known' code where
  inward := h.inward
  names := h.names
  needs i p x hp hx := (h.needs i p x hp hx).imp_left (hsub x)
  skips := h.skips
  makes i p index f hp hindex hf := (h.makes i p index f hp hindex hf).mono fun x hx =>
    hx.imp_left (hsub x)

/-- Code in order stays in order when there are further literals. -/
theorem literals (h : InOrder ls known code) (rest : List Literal) :
    InOrder (ls ++ rest) known code := by
  have htake : ∀ i, ∀ p ∈ code.take i, p.instruction.Names ls :=
    fun i p hp => h.names p (List.mem_of_mem_take hp)
  refine ⟨h.inward, fun p hp => (h.names p hp).append rest, fun i p x hp hx => ?_,
    fun i p j x hp hj hx => ?_,
    fun i p index f hp hindex hf => ?_⟩
  · rw [defines_literals (htake i)]
    refine h.needs i p x hp (hx.of_literals fun q hq => ?_)
    obtain rfl := List.mem_singleton.mp hq
    exact h.names q (List.mem_of_getElem? hp)
  · rw [defines_literals (htake _)] at hx ⊢
    exact h.skips i p j x hp hj hx
  · refine (h.makes i p index f hp hindex ?_).mono fun x hx => ?_
    · exact (h.names p (List.mem_of_getElem? hp)).getElem? (.inl hindex) hf
    · rwa [defines_literals (htake _)]

end InOrder

end

end EntityScript
