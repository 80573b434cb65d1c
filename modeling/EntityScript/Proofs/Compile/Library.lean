/-
# Compiled functions

What can be said of every function of a compiled program: it is made of a body that fits it, and its
number tells it from all other functions of the program.

A library says which source every compilation has read.  Compilations are numbered, so the functions
of all programs of a library are told apart by the compilation and the number there
(`Library.Holds.eq_of_id`).
-/
import EntityScript.Host.Basic
import EntityScript.Proofs.Compile.Acceptance
import EntityScript.Proofs.Script.Fitting

namespace EntityScript

/-- A program that compiles is made of the resolved statements of its script, which fit its main
function. -/
theorem resolved_of_compile {unit : Nat} {globals : List String} {source : String} {p : Program}
    (h : compile unit globals source = .ok p) :
    ∃ (s : Script) (body : Block) (c : Context), s.Spelled (tokens source) ∧
      Clause.elaborateAll s.body .empty (.start unit globals) = some (body, c) ∧
      p = ⟨.ofBody ⟨unit, 0⟩ none 0 c.literals body s.lastLine, c.strings.reverse⟩ ∧
      body.Fits 1 c.literals ∧
      Context.Compiles (.start unit globals) c c.literals body.bodies := by
  obtain ⟨s, hs, hp⟩ := spelled_of_compileTokens (orderly_tokens source) h
  obtain ⟨body, c, hb, hp⟩ := Script.program?_eq_some_iff.mp hp
  have hsp := hs
  obtain ⟨us, t, -, -, -, hspells⟩ := hsp
  have hempty : Block.empty.Fits 1 (Context.start unit globals).literals := trivial
  obtain ⟨-, more, new, hcomp, -, -, hfits, -⟩ :=
    hspells.resolves Scope.tidy_start hempty rfl hb
  have hmore : c.literals = more := hcomp.literals
  rw [← hmore] at hcomp
  exact ⟨s, body, c, hs, hb, hp, hfits, hcomp⟩

/-- The functions of a compiled program are made of bodies that fit them, and each has a number of
its own. -/
theorem family_of_compile {unit : Nat} {globals : List String} {source : String} {p : Program}
    (h : compile unit globals source = .ok p) :
    (∃ bodies, ∀ f ∈ p.main.family, f.MadeOf bodies) ∧
    ∃ next, Numbered unit 0 next p.main.family := by
  obtain ⟨s, body, c, -, -, rfl, hfits, hcomp⟩ := resolved_of_compile h
  have hfamily : (Function.ofBody ⟨unit, 0⟩ none 0 c.literals body s.lastLine).family =
      .ofBody ⟨unit, 0⟩ none 0 c.literals body s.lastLine :: Literal.familyAll c.literals :=
    Function.family_eq _
  simp only [hfamily]
  refine ⟨⟨body :: body.bodies, ?_⟩, c.serial, ?_, ?_⟩
  · intro f hf
    rcases List.mem_cons.mp hf with rfl | hf
    · exact ⟨body, List.mem_cons_self, hfits, s.lastLine, rfl⟩
    · exact (hcomp.fitting f hf).mono (List.subset_cons_self _ _)
  · intro f hf
    have hserial : 1 ≤ c.serial := hcomp.serial
    rcases List.mem_cons.mp hf with rfl | hf
    · exact ⟨rfl, Nat.le_refl 0, hserial⟩
    · obtain ⟨hu, -, hlt⟩ := hcomp.numbered.within f hf
      exact ⟨hu, Nat.zero_le _, hlt⟩
  · rw [List.pairwise_cons]
    refine ⟨?_, hcomp.numbered.distinct⟩
    intro g hg
    -- the script itself has number zero, its functions count from one
    have hone : 1 ≤ g.id.serial := (hcomp.numbered.within g hg).2.1
    exact Nat.ne_of_lt hone

/-- What every compilation reads: the globals that may be used, and the source. -/
abbrev Library := Nat → List String × String

namespace Library

/-- The program of a compilation, if its source compiles. -/
def program (lib : Library) (unit : Nat) : Except CompileError Program :=
  compile unit (lib unit).1 (lib unit).2

/-- A function of one of the programs of a library. -/
def Holds (lib : Library) (f : Function) : Prop :=
  ∃ p, lib.program f.id.unit = .ok p ∧ f ∈ p.main.family

variable {lib : Library} {f g : Function}

/-- The script of a program is one of the functions of the library it belongs to. -/
theorem holds_main {unit : Nat} {p : Program} (h : lib.program unit = .ok p) :
    lib.Holds p.main := by
  obtain ⟨-, next, hnum⟩ := family_of_compile h
  have hmem := p.main.self_mem_family
  refine ⟨p, ?_, hmem⟩
  rw [(hnum.within _ hmem).1]
  exact h

/-- A function among the literals of a function belongs to the same program. -/
theorem Holds.literal (h : lib.Holds f) (hg : .function g ∈ f.chunk.literals) : lib.Holds g := by
  obtain ⟨p, hp, hf⟩ := h
  have hmem : g ∈ p.main.family := by
    apply Function.family_subset hf
    rw [f.family_eq]
    exact List.mem_cons_of_mem _ (Literal.family_subset_familyAll hg g.self_mem_family)
  obtain ⟨-, next, hnum⟩ := family_of_compile hp
  refine ⟨p, ?_, hmem⟩
  rw [(hnum.within g hmem).1]
  exact hp

/-- The functions that a program declares belong to its library. -/
theorem holds_function {unit : Nat} {p : Program} (hp : lib.program unit = .ok p) {f : Function}
    (hf : f ∈ p.functions) : lib.Holds f := by
  obtain ⟨l, hl, hlf⟩ := List.mem_filterMap.mp hf
  cases l with
  | function g =>
    obtain rfl : g = f := Option.some.inj hlf
    exact (holds_main hp).literal hl
  | int | float | string => cases hlf

/-- Every function of a library was made of a body. -/
theorem Holds.madeOf (h : lib.Holds f) : ∃ bodies, f.MadeOf bodies := by
  obtain ⟨p, hp, hf⟩ := h
  obtain ⟨⟨bodies, hmade⟩, -⟩ := family_of_compile hp
  exact ⟨bodies, hmade f hf⟩

/-- The compilation and the number there tell the function. -/
theorem Holds.eq_of_id (hf : lib.Holds f) (hg : lib.Holds g) (h : f.id = g.id) : f = g := by
  obtain ⟨p, hp, hfp⟩ := hf
  obtain ⟨q, hq, hgq⟩ := hg
  rw [h] at hp
  obtain rfl : p = q := Except.ok.inj (hp.symm.trans hq)
  obtain ⟨-, next, hnum⟩ := family_of_compile hp
  exact hnum.eq_of_id hfp hgq h

end Library

/-- The compiled functions of a host are functions of the library. -/
def Host.From (lib : Library) (host : Host) : Prop :=
  ∀ (name : String) (f : Function), host.scripts[name]? = some f → lib.Holds f

end EntityScript
