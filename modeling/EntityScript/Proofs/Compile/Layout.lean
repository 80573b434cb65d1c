/-
# Layout

What lies between the tokens of a source, and with it their lines, has no influence on the program:
two sources whose tokens have the same kinds and texts give the same program or the same
diagnostics, up to lines (`layout_invisible`).
-/
import EntityScript.Compile.Program
import EntityScript.Proofs.Compile.Relabelling
import EntityScript.Proofs.Token.Respacing

namespace EntityScript

/-- Tokens that differ only in their lines are the same without these. -/
theorem Token.map_bare_of_faces {ts ts' : List Token} (h : ts.map Token.face = ts'.map Token.face) :
    ts.map (Token.relabel .bare) = ts'.map (Token.relabel .bare) := by
  have hbare (us : List Token) :
      us.map (Token.relabel .bare) = (us.map Token.face).map fun face => ⟨face.1, face.2, 0⟩ := by
    rw [List.map_map]
    rfl
  rw [hbare, hbare, h]

namespace ParseState

/-- Reading starts in states that are alike without their lines. -/
theorem start_bare (unit unit' : Nat) (globals : List String) {ts ts' : List Token}
    (h : ts.map (Token.relabel .bare) = ts'.map (Token.relabel .bare)) :
    (start unit globals ts).relabel .bare = (start unit' globals ts').relabel .bare := by
  rw [relabel, relabel, start, start, h]
  rfl

/-- Tokens that differ in their lines only are read alike, up to lines. -/
theorem readTokens_bare (unit unit' : Nat) (globals : List String) {ts ts' : List Token}
    (h : ts.map (Token.relabel .bare) = ts'.map (Token.relabel .bare)) :
    (readTokens unit globals ts).map (Block.relabel .bare) (relabel .bare) =
      (readTokens unit' globals ts').map (Block.relabel .bare) (relabel .bare) := by
  have hlength : ts.length = ts'.length := by
    have hmap := congrArg List.length h
    rwa [List.length_map, List.length_map] at hmap
  have hbudget : readingBudget ts = readingBudget ts' := by
    rw [readingBudget, readingBudget, hlength]
  rw [readTokens, readTokens, ← readScript_relabel, ← readScript_relabel, ← advance_relabel,
    ← advance_relabel, start_bare unit unit' globals h, hbudget]

end ParseState

/-- Either both scripts are refused, with the same diagnostics on perhaps other lines, or both are
accepted, and the programs differ only in lines and in the numbers of their compilations. -/
def SameButLines : Except CompileError Program → Except CompileError Program → Prop
  | .error e, .error e' =>
    e.diagnostics.map (Diagnostic.relabel .bare) = e'.diagnostics.map (Diagnostic.relabel .bare)
  | .ok p, .ok p' => p.relabel .bare = p'.relabel .bare
  | _, _ => False

/-- Tokens that differ in their lines only are compiled alike, up to the lines in diagnostics and in
the code. -/
theorem compileTokens_sameButLines (unit unit' : Nat) (globals : List String) {ts ts' : List Token}
    (h : ts.map Token.face = ts'.map Token.face) :
    SameButLines (compileTokens unit globals ts) (compileTokens unit' globals ts') := by
  have hread := ParseState.readTokens_bare unit unit' globals (Token.map_bare_of_faces h)
  rw [compileTokens, compileTokens]
  generalize readTokens unit globals ts = r at hread ⊢
  generalize readTokens unit' globals ts' = r' at hread ⊢
  obtain ⟨body, p⟩ := r
  obtain ⟨body', p'⟩ := r'
  obtain ⟨hbody, hp⟩ := Prod.mk.inj hread
  have hdiagnostics : p.diagnostics.map (Diagnostic.relabel .bare) =
    p'.diagnostics.map (Diagnostic.relabel .bare) :=
    List.append_cancel_right (congrArg ParseState.diagnostics hp)
  have hliterals : Literal.relabelAll .bare p.literals = Literal.relabelAll .bare p'.literals :=
    congrArg ParseState.literals hp
  have hstrings : (p.relabel .bare).strings = (p'.relabel .bare).strings :=
    congrArg ParseState.strings hp
  have hempty : p.diagnostics.isEmpty = p'.diagnostics.isEmpty := by
    rw [← List.isEmpty_map (f := Diagnostic.relabel .bare), hdiagnostics, List.isEmpty_map]
  simp only [hempty]
  split
  · have hreverse : p.strings.reverse = p'.strings.reverse := congrArg List.reverse hstrings
    have hmain : (Function.assemble ⟨unit, 0⟩ none 0 p.literals body p.line).relabel .bare =
        (Function.assemble ⟨unit', 0⟩ none 0 p'.literals body' p'.line).relabel .bare := by
      rw [← Function.assemble_relabel, ← Function.assemble_relabel, hbody, hliterals]
      rfl
    rw [SameButLines, Program.relabel, Program.relabel, hmain, hreverse]
  · rw [SameButLines, List.map_reverse, List.map_reverse, hdiagnostics]

/-- Layout never changes what a source means.  Without bad text, a source can be written with single
spaces between its tokens; and two sources whose tokens have the same kinds and texts compile
alike. -/
theorem layout_invisible :
    (∀ source, (∀ t ∈ tokens source, t.kind ≠ .error) →
      (tokens (respaced source)).map Token.face = (tokens source).map Token.face) ∧
    ∀ (unit unit' : Nat) (globals : List String) (source source' : String),
      (tokens source).map Token.face = (tokens source').map Token.face →
      SameButLines (compile unit globals source) (compile unit' globals source') :=
  ⟨fun _ hgood => faces_respaced hgood, fun unit unit' globals _ _ hfaces =>
    compileTokens_sameButLines unit unit' globals hfaces⟩

/-- A source without spaces, one with single spaces, and one on several lines. -/
theorem layout_invisible_printing :
    respaced "print(1.5);" = "print ( 1.5 ) ;" ∧
      (tokens (respaced "print(1.5);")).map Token.face = (tokens "print(1.5);").map Token.face ∧
      (compile 0 [] "print(1.5);").isOk = true ∧
      SameButLines (compile 0 [] "print(1.5);")
      (compile 1 [] "# one and a half\n\nprint\n  (1.5) ;\n") := by
  have hgood : ∀ t ∈ tokens "print(1.5);", t.kind ≠ .error := by decide +kernel
  have hfaces : (tokens "print(1.5);").map Token.face =
      (tokens "# one and a half\n\nprint\n  (1.5) ;\n").map Token.face := by decide +kernel
  have hrespaced : respaced "print(1.5);" = "print ( 1.5 ) ;" := by decide +kernel
  have hok : (compile 0 [] "print(1.5);").isOk = true := by decide +kernel
  refine ⟨hrespaced, layout_invisible.1 _ hgood, hok, ?_⟩
  apply layout_invisible.2
  exact hfaces

end EntityScript
