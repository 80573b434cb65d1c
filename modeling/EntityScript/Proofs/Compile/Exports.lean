/-
# What a program offers to a host

A program offers the functions among the literals of its main function.  These are the functions
that the script declares outside of other functions, in order, and a block hides none of them: a
function that is declared in a block is a literal of the main function, too.  And where a name is
declared more than once, looking the name up gives the first function of this name, while a host
keeps the last one.

So a program offers the functions of the top level, and both look-ups agree, exactly if no function
is declared in a block and no name more than once (`exports_are_declarations`).
-/
import EntityScript.Proofs.Compile.Library
import EntityScript.Proofs.Script.Gathering

namespace EntityScript

/-! ## Names that are given twice -/

/-- The first and the last entry of a list without repetition are the same only if there are no
two. -/
theorem getLast?_eq_head?_iff {α : Type} {l : List α} (h : l.Nodup) :
    l.getLast? = l.head? ↔ l.length ≤ 1 := by
  match l, h with
  | [], _ => simp
  | [a], _ => simp
  | a :: b :: l, h =>
    refine iff_of_false (fun hlast => ?_) (by simp)
    rw [List.getLast?_cons_cons, List.head?_cons] at hlast
    exact (List.nodup_cons.mp h).1 (List.mem_of_getLast? hlast)

namespace Program

/-- The functions of a program with a given name, in order. -/
def named (p : Program) (x : String) : List Function :=
  p.functions.filter (·.name == some x)

/-- Of several functions with one name the first one is found. -/
theorem function?_eq (p : Program) (x : String) : p.function? x = (p.named x).head? :=
  List.head?_filter.symm

end Program

namespace Host

variable {host : Host} {x : String}

/-- A host keeps the last function that is added under a name. -/
theorem scripts_foldl_addNamed (fs : List Function) :
    (fs.foldl addNamed host).scripts[x]? =
    (fs.filter (·.name == some x)).getLast?.or host.scripts[x]? := by
  induction fs generalizing host with
  | nil => rfl
  | cons f fs ih =>
    rw [List.foldl_cons, ih]
    have hfirst : (host.addNamed f).scripts[x]? = if f.name =
      some x then some f else host.scripts[x]? := by
      rw [addNamed]
      cases hname : f.name with
      | none => rfl
      | some y =>
        show (host.scripts.insert y f)[x]? = _
        simp only [Std.TreeMap.getElem?_insert, Std.LawfulEqCmp.compare_eq_iff_eq,
          Option.some.injEq]
    rw [hfirst]
    by_cases hx : f.name = some x
    · rw [if_pos hx, List.filter_cons, if_pos (beq_iff_eq.mpr hx), List.getLast?_cons]
      cases (fs.filter (·.name == some x)).getLast? <;> rfl
    · rw [if_neg hx, List.filter_cons_of_neg (by simpa using hx)]

/-- Of several functions with one name the last one is registered. -/
theorem scripts_addProgram (host : Host) (p : Program) (x : String) :
    (host.addProgram p).scripts[x]? = (p.named x).getLast?.or host.scripts[x]? :=
  scripts_foldl_addNamed p.functions

end Host

/-! ## Functions and declarations -/

namespace Literal

/-- The functions among some literals are inside them. -/
theorem functions_sublist (ls : List Literal) :
    (ls.filterMap function?).Sublist (familyAll ls) := by
  induction ls with
  | nil => exact .slnil
  | cons l ls ih =>
    rw [familyAll]
    cases l with
    | function f =>
      rw [List.filterMap_cons, function?, family, Function.family_eq, List.cons_append]
      exact (ih.trans (List.sublist_append_right _ _)).cons_cons f
    | int | float | string => exact ih

end Literal

/-- No function of a program is offered twice. -/
theorem nodup_functions {unit : Nat} {globals : List String} {source : String} {p : Program}
    (hp : compile unit globals source = .ok p) : p.functions.Nodup := by
  obtain ⟨-, next, hnumbered⟩ := family_of_compile hp
  have hsublist : p.functions.Sublist p.main.family := by
    rw [p.main.family_eq]
    exact (Literal.functions_sublist _).trans (List.sublist_cons_self _ _)
  refine (hnumbered.distinct.sublist hsublist).imp fun hne heq => ?_
  exact hne (congrArg (·.id.serial) heq)

/-- The functions with a name are as many as the declarations with it. -/
theorem length_named {unit : Nat} {p : Program} {ds : List Declaration}
    (h : List.Forall₂ (Declaration.Became unit) ds p.functions) (x : String) :
    (p.named x).length = (ds.filter (·.name == x)).length := by
  refine (List.Forall₂.length_eq (R := Declaration.Became unit) ?_).symm
  refine List.rel_filter (fun d f hf => ?_) h
  simp [hf.name]

/-- A program offers exactly the functions that its script declares outside of other functions, in
order.  They are those of the top level if and only if none of them is declared in a block.  Looking
up a name gives the first function with it.  A host to which the program is added has the last one,
or what it had before if there is none; so for a name that is declared, both are the same if and
only if it is declared once. -/
theorem exports_are_declarations {unit : Nat} {globals : List String} {source : String}
    {p : Program} (hp : compile unit globals source = .ok p) :
    ∃ s : Script, s.Spelled (tokens source) ∧ s.program? unit globals = some p ∧
      List.Forall₂ (Declaration.Became unit) s.declared p.functions ∧
      (List.Forall₂ (Declaration.Became unit) (s.declared.filter (·.blocks == 0)) p.functions ↔
        ∀ d ∈ s.declared, d.blocks = 0) ∧
      ∀ (x : String) (host : Host),
        p.function? x = (p.named x).head? ∧
        (host.addProgram p).scripts[x]? = (p.named x).getLast?.or host.scripts[x]? ∧
        ((∃ d ∈ s.declared, d.name = x) →
          ((host.addProgram p).scripts[x]? = p.function? x ↔
            (s.declared.filter (·.name == x)).length = 1)) := by
  obtain ⟨s, hspelled, hprogram⟩ := spelled_of_compileTokens (orderly_tokens source) hp
  obtain ⟨hfunctions, -, -⟩ := s.gathered hprogram
  refine ⟨s, hspelled, hprogram, hfunctions, ⟨fun h => ?_, fun h => ?_⟩, fun x host =>
    ⟨p.function?_eq x, host.scripts_addProgram p x, ?_⟩⟩
  · have hlength : (s.declared.filter (·.blocks == 0)).length = s.declared.length :=
      h.length_eq.trans hfunctions.length_eq.symm
    intro d hd
    exact beq_iff_eq.mp (List.length_filter_eq_length_iff.mp hlength d hd)
  · rwa [List.filter_eq_self.mpr fun d hd => beq_iff_eq.mpr (h d hd)]
  · rintro ⟨d, hd, rfl⟩
    have hlength := length_named hfunctions d.name
    have hpositive : 0 < (s.declared.filter (·.name == d.name)).length :=
      List.length_pos_of_mem (List.mem_filter.mpr ⟨hd, beq_self_eq_true _⟩)
    obtain ⟨f, hf⟩ : ∃ f, (p.named d.name).getLast? = some f :=
      ⟨_, List.getLast?_eq_some_getLast (List.ne_nil_of_length_pos (hlength ▸ hpositive))⟩
    have hnodup : (p.named d.name).Nodup := (nodup_functions hp).filter _
    rw [host.scripts_addProgram, p.function?_eq, hf, Option.some_or, ← hf,
      getLast?_eq_head?_iff hnodup, hlength]
    omega

/-- A script with a function in a block and another one of this name after it. -/
def leakingScript : String :=
  "\x7b fun f() \x7b \x7d \x7d fun f(a) \x7b \x7d"

/-- A script whose first function stands in a block and has the name of the second one. -/
theorem exports_are_declarations_leaking : ∃ p, compile 0 [] leakingScript = .ok p ∧
    ∃ s : Script, s.Spelled (tokens leakingScript) ∧ s.program? 0 [] = some p ∧
      List.Forall₂ (Declaration.Became 0) s.declared p.functions ∧
      (List.Forall₂ (Declaration.Became 0) (s.declared.filter (·.blocks == 0)) p.functions ↔
        ∀ d ∈ s.declared, d.blocks = 0) ∧
      ∀ (x : String) (host : Host),
        p.function? x = (p.named x).head? ∧
        (host.addProgram p).scripts[x]? = (p.named x).getLast?.or host.scripts[x]? ∧
        ((∃ d ∈ s.declared, d.name = x) →
          ((host.addProgram p).scripts[x]? = p.function? x ↔
            (s.declared.filter (·.name == x)).length = 1)) := by
  have hok : (compile 0 [] leakingScript).isOk = true := by decide +kernel
  obtain ⟨p, hp⟩ := exists_of_isOk hok
  exact ⟨p, hp, exports_are_declarations hp⟩

/-- What `leakingScript` says. -/
def leakingScript.script : Script :=
  ⟨[.block [.function 1 "f" [] [] 1] 1, .function 2 "f" ["a"] [] 1], 1⟩

/-- The tokens of this script are those of its tree. -/
theorem leakingScript.spelled : leakingScript.script.Spelled (tokens leakingScript) := by
  have htokens : tokens leakingScript =
      [⟨.leftBrace, "\x7b", 1⟩, ⟨.kwFun, "fun", 1⟩, ⟨.identifier, "f", 1⟩, ⟨.leftParen, "(", 1⟩,
        ⟨.rightParen, ")", 1⟩, ⟨.leftBrace, "\x7b", 1⟩, ⟨.rightBrace, "\x7d", 1⟩,
        ⟨.rightBrace, "\x7d", 1⟩,
        ⟨.kwFun, "fun", 1⟩, ⟨.identifier, "f", 1⟩, ⟨.leftParen, "(", 1⟩, ⟨.identifier, "a", 1⟩,
        ⟨.rightParen, ")", 1⟩, ⟨.leftBrace, "\x7b", 1⟩, ⟨.rightBrace, "\x7d", 1⟩] ++ [.eof 1] := by
    decide +kernel
  have hinner := @Spells.function ⟨.kwFun, "fun", 1⟩ ⟨.identifier, "f", 1⟩ ⟨.leftParen, "(", 1⟩
    ⟨.rightParen, ")", 1⟩ ⟨.leftBrace, "\x7b", 1⟩ ⟨.rightBrace, "\x7d", 1⟩ []
    [] 1 rfl rfl rfl rfl rfl .none rfl
  have hblock := @Spells.block ⟨.leftBrace, "\x7b", 1⟩ ⟨.rightBrace, "\x7d", 1⟩ _ _ rfl
    (.more hinner .none) rfl
  have houter := @Spells.functionWith ⟨.kwFun, "fun", 1⟩ ⟨.identifier, "f", 1⟩ ⟨.leftParen, "(", 1⟩
    ⟨.rightParen, ")", 1⟩ ⟨.leftBrace, "\x7b", 1⟩ ⟨.rightBrace, "\x7d", 1⟩ [⟨.identifier, "a", 1⟩]
    [] ["a"] [] 2 rfl rfl rfl (.last rfl) rfl rfl .none rfl
  exact ⟨_, _, htokens, rfl, rfl, .more (.ofStatement hblock) (.more houter .none)⟩

/-- Not all that a program offers is declared at the top level, and looking up a name need not give
the function that a host has under it. -/
theorem exports_beyond_top_level : ∃ (s : Script) (p : Program),
    s.Spelled (tokens leakingScript) ∧ s.program? 0 [] = some p ∧
    compile 0 [] leakingScript = .ok p ∧
    ¬ List.Forall₂ (Declaration.Became 0) (s.declared.filter (·.blocks == 0)) p.functions ∧
    (Host.empty.addProgram p).scripts["f"]? ≠ p.function? "f" := by
  have hsome : (leakingScript.script.program? 0 []).isSome = true := by decide +kernel
  obtain ⟨p, hp⟩ := Option.isSome_iff_exists.mp hsome
  have hgood : ∀ t ∈ tokens leakingScript, t.kind ≠ .error := by decide +kernel
  have hcompile : compile 0 [] leakingScript = .ok p :=
    compileTokens_of_spelled hgood leakingScript.spelled hp
  have hdeclared : leakingScript.script.declared = [⟨1, "f", [], 1⟩, ⟨2, "f", ["a"], 0⟩] := rfl
  obtain ⟨hfunctions, -, -⟩ := leakingScript.script.gathered hp
  rw [hdeclared] at hfunctions
  refine ⟨_, p, leakingScript.spelled, hp, hcompile, fun h => ?_, fun h => ?_⟩
  · have hlength := h.length_eq
    rw [← hfunctions.length_eq, hdeclared] at hlength
    exact absurd hlength (by decide)
  · rw [Host.scripts_addProgram, p.function?_eq, Program.named] at h
    match hfs : p.functions, hfunctions with
    | _, .cons (b := f) hf (.cons (b := g) hg .nil) =>
      have hnames : [f, g].filter (·.name == some "f") = [f, g] :=
        List.filter_eq_self.mpr (by simp [hf.name, hg.name])
      rw [hfs, hnames] at h
      have hsame : g.id = f.id := congrArg Function.id (Option.some.inj h)
      rw [hf.id, hg.id] at hsame
      cases hsame

end EntityScript
