/-
# Recovery from errors

After an error the compiler reports nothing more until it has recovered.  To recover, it drops its
panic and skips tokens up to a boundary.  Bad text among the skipped tokens is an error as well, and
brings the panic back, so recovery ends without panic exactly if no bad text was skipped
(`recovery_ends_panic_iff`).  Then the declaration that comes next is read as if there had been no
error before: either it is one that the grammar and the static rules allow, or an error of it is
recorded.
-/
import EntityScript.Proofs.Compile.Relabelling
import EntityScript.Proofs.Compile.StmtSoundness
import EntityScript.Proofs.Compile.Acceptance

namespace EntityScript

namespace ParseState

/-! ## What recovery skips -/

/-- The diagnostic for the first bad text among some tokens, if there is any. -/
def badText (ts : List Token) : List Diagnostic :=
  ((ts.find? (·.kind = .error)).map fun t => ⟨t.line, .nowhere, .lexical t.text⟩).toList

/-- Some tokens have been skipped: a boundary has been reached, and the first bad text among them
has been reported, unless there was panic before. -/
structure Skips (p q : ParseState) (skipped : List Token) : Prop where
  rest : p.rest = skipped ++ q.rest
  boundary : q.atBoundary = true
  diagnostics : q.diagnostics = (if p.panicking then [] else badText skipped) ++ p.diagnostics
  panicking : q.panicking = true ↔ p.panicking = true ∨ ∃ t ∈ skipped, t.kind = .error

@[simp] theorem badText_nil : badText [] = [] := rfl

/-- Where a bad text comes first it is the one that is reported. -/
theorem badText_cons_bad {t : Token} (ht : t.kind = .error) (ts : List Token) :
    badText (t :: ts) = [⟨t.line, .ofToken t, .lexical t.text⟩] := by
  rw [badText, List.find?_cons_of_pos (by simpa using ht), Location.ofToken, ht]
  rfl

theorem badText_cons_good {t : Token} (ht : t.kind ≠ .error) (ts : List Token) :
    badText (t :: ts) = badText ts := by
  rw [badText, List.find?_cons_of_neg (by simpa using ht), badText]

namespace Skips

variable {p q : ParseState} {t : Token} {ts skipped : List Token}

/-- Nothing is skipped at a boundary. -/
theorem nil (h : p.atBoundary = true) : Skips p p [] :=
  ⟨rfl, h, by simp, by simp⟩

/-- A bad text that is skipped is a complaint, unless one was made before. -/
theorem bad (hrest : p.rest = t :: ts) (ht : t.kind = .error)
    (h : Skips { p.complainAt t (.lexical t.text) with rest := ts } q skipped) :
    Skips p q (t :: skipped) := by
  obtain ⟨hsplit, hboundary, hdiagnostics, hpanicking⟩ := h
  have hpanics : (p.complainAt t (.lexical t.text)).panicking = true := by
    rw [complainAt]
    split
    · next hpanics => exact hpanics
    · rfl
  refine ⟨by rw [hrest, List.cons_append, ← hsplit], hboundary, ?_, ?_⟩
  · rw [hdiagnostics, if_pos hpanics, List.nil_append, badText_cons_bad ht, complainAt]
    split <;> rfl
  · exact iff_of_true (hpanicking.mpr (.inl hpanics)) (.inr ⟨t, List.mem_cons_self, ht⟩)

/-- A good token that is skipped is the next current one. -/
theorem good (hrest : p.rest = t :: ts) (ht : t.kind ≠ .error)
    (h : Skips { p with rest := ts, previous := p.current, current := t } q skipped) :
    Skips p q (t :: skipped) := by
  obtain ⟨hsplit, hboundary, hdiagnostics, hpanicking⟩ := h
  refine ⟨by rw [hrest, List.cons_append, ← hsplit], hboundary, ?_, ?_⟩
  · rw [hdiagnostics, badText_cons_good ht]
  · rw [hpanicking]
    simp [ht]

end Skips

/-- Skipping passes over some tokens up to where it stops. -/
theorem skips_skip (ts : List Token) (p : ParseState) (hrest : p.rest = ts) :
    ∃ skipped, Skips p (skip ts p) skipped := by
  induction ts generalizing p with
  | nil =>
    rw [skip]
    split
    · next hboundary => exact ⟨[], .nil hboundary⟩
    · exact ⟨[], hrest, rfl, by simp [shift], by simp [shift]⟩
  | cons t ts ih =>
    rw [skip]
    split
    · next hboundary => exact ⟨[], .nil hboundary⟩
    · split
      · next hbad =>
        obtain ⟨skipped, hskips⟩ := ih { p.complainAt t (.lexical t.text) with rest := ts } rfl
        exact ⟨t :: skipped, .bad hrest hbad hskips⟩
      · next hgood =>
        obtain ⟨skipped, hskips⟩ := ih { p with rest := ts, previous := p.current, current := t }
          rfl
        exact ⟨t :: skipped, .good hrest hgood hskips⟩

/-- The second token may go, unless it is the last one. -/
theorem Orderly.drop_second {t u : Token} {ts : List Token} (h : Orderly (t :: u :: ts))
    (ht : t.kind ≠ .eof) (hu : u.kind ≠ .eof) : Orderly (t :: ts) := by
  obtain ⟨⟨us, last, hus, hlast, hne⟩, hnamed⟩ := (h.tail ht).tail hu
  refine ⟨⟨t :: us, last, by rw [hus, List.cons_append], hlast, ?_⟩, ?_⟩
  · exact List.forall_mem_cons.mpr ⟨ht, hne⟩
  · exact List.forall_mem_cons.mpr ⟨h.named t List.mem_cons_self, hnamed⟩

@[simp] theorem current_complainAt (p : ParseState) (t : Token) (c : Complaint) :
    (p.complainAt t c).current = p.current := by
  rw [complainAt]
  split <;> rfl

/-- Skipping keeps the tokens of a source orderly. -/
theorem orderly_skip (ts : List Token) (p : ParseState) (hrest : p.rest = ts)
    (h : Orderly p.stream) :
    Orderly (skip ts p).stream := by
  have hstream : p.stream = p.current :: ts := by rw [stream, hrest]
  induction ts generalizing p with
  | nil =>
    rw [skip]
    split
    · exact h
    · next hboundary =>
      have heof : p.current.kind ≠ .eof := fun heof => hboundary (by simp [atBoundary, at?, heof])
      rw [hstream] at h
      exact absurd rfl (h.tail_ne_nil heof)
  | cons t ts ih =>
    rw [skip]
    split
    · exact h
    · next hboundary =>
      have heof : p.current.kind ≠ .eof := fun heof => hboundary (by simp [atBoundary, at?, heof])
      rw [hstream] at h
      split
      · next hbad =>
        have hdropped : Orderly { p.complainAt t (.lexical t.text) with rest := ts }.stream := by
          rw [stream, current_complainAt]
          exact h.drop_second heof (by simp [hbad])
        refine ih _ rfl hdropped ?_
        rfl
      · exact ih { p with rest := ts, previous := p.current, current := t } rfl (h.tail heof) rfl

/-! ## What is read after a recovery -/

/-- The state with errors that were found before. -/
def after (p : ParseState) (earlier : List Diagnostic) : ParseState :=
  { p with diagnostics := p.diagnostics ++ earlier }

theorem relabel_after (p : ParseState) (earlier : List Diagnostic) :
    p.relabel (.after earlier) = p.after earlier := by
  have htokens : p.rest.map (Token.relabel (.after earlier)) = p.rest := List.map_id _
  have hdiagnostics : p.diagnostics.map (Diagnostic.relabel (.after earlier)) = p.diagnostics :=
    List.map_id _
  rw [relabel, htokens, hdiagnostics, Literal.relabelAll_after]
  rfl

/-- Errors found before have no influence on what is read. -/
theorem readDeclaration_after (n : Nat) (p : ParseState) (earlier : List Diagnostic) :
    ((p.after earlier).readDeclaration n).2 = (p.readDeclaration n).2.after earlier := by
  rw [← relabel_after, ← relabel_after, (stmtRelabels (.after earlier) n).declaration]
  rfl

/-- Without panic, a declaration is one of the language, or else an error of it is recorded. -/
theorem readDeclaration_reports {p : ParseState} (hcalm : p.panicking = false)
    (ho : Orderly p.stream) (heof : p.current.kind ≠ .eof) {n : Nat}
    (hn : 4 * p.stream.length + 3 ≤ n) :
    (∃ s t, ReadsClause .declaration p (p.readDeclaration n).2 s t) ∨
      ∃ found, found ≠ [] ∧ (p.readDeclaration n).2.diagnostics = found ++ p.diagnostics := by
  -- without the errors that were found before, the declaration is read in the same way
  generalize hfresh : { p with diagnostics := [] } = fresh
  have hp : p = fresh.after p.diagnostics := by
    subst hfresh
    rfl
  have hread := readDeclaration_after n fresh p.diagnostics
  rw [← hp] at hread
  rw [hread]
  by_cases hclean : (fresh.readDeclaration n).2.diagnostics = []
  · left
    have hready : Ready fresh := by
      subst hfresh
      exact ⟨fun hpanics => absurd (hcalm.symm.trans hpanics) (by simp), ho⟩
    have heof' : fresh.current.kind ≠ .eof := by
      subst hfresh
      exact heof
    have hn' : 4 * fresh.stream.length + 3 ≤ n := by
      subst hfresh
      exact hn
    obtain ⟨s, hs⟩ := (stmtSound n).declaration hready heof' hn' rfl hclean
    refine ⟨s, (fresh.readDeclaration n).1, ?_⟩
    rw [hp]
    exact ⟨hs.spelled, hs.resolved, hs.line, hs.closed⟩
  · exact .inr ⟨_, hclean, rfl⟩

/-- Recovery skips some tokens up to a boundary and reports the first bad text among them.  It ends
in panic if there is bad text among them, and then hides what comes next.  Otherwise the next
declaration is one that the grammar and the static rules allow, or an error of it is recorded. -/
theorem recovery_ends_panic_iff (p : ParseState) :
    ∃ skipped, p.rest = skipped ++ p.synchronize.rest ∧ p.synchronize.atBoundary = true ∧
      p.synchronize.diagnostics = badText skipped ++ p.diagnostics ∧
      (p.synchronize.panicking = false ↔ ∀ t ∈ skipped, t.kind ≠ .error) ∧
      ((∃ t ∈ skipped, t.kind = .error) → ∀ t c, p.synchronize.complainAt t c = p.synchronize) ∧
      ((∀ t ∈ skipped, t.kind ≠ .error) → Orderly p.stream → p.synchronize.current.kind ≠ .eof →
        ∀ n, 4 * p.synchronize.stream.length + 3 ≤ n →
          (∃ s t, ReadsClause .declaration p.synchronize (p.synchronize.readDeclaration n).2 s t) ∨
            ∃ found, found ≠ [] ∧
              (p.synchronize.readDeclaration n).2.diagnostics =
              found ++ p.synchronize.diagnostics) := by
  obtain ⟨skipped, hrest, hboundary, hdiagnostics, hpanicking⟩ :=
    skips_skip p.rest { p with panicking := false } rfl
  have hpanics : p.synchronize.panicking = true ↔ ∃ t ∈ skipped, t.kind = .error :=
    hpanicking.trans (or_iff_right Bool.false_ne_true)
  have hcalm : p.synchronize.panicking = false ↔ ∀ t ∈ skipped, t.kind ≠ .error := by
    rw [← Bool.not_eq_true, hpanics]
    simp
  refine ⟨skipped, hrest, hboundary, hdiagnostics, hcalm, fun hbad t c => ?_,
    fun hgood ho heof n hn => ?_⟩
  · rw [complainAt, if_pos (hpanics.mpr hbad)]
  · exact readDeclaration_reports (hcalm.mpr hgood)
      (orderly_skip _ { p with panicking := false } rfl ho) heof hn

/-- The state behind the first statement of a source, before a recovery. -/
def firstRead (source : String) : ParseState :=
  ((start 0 [] (tokens source)).advance.readStatement 40).2

/-- After an error and a semicolon, an undefined variable in the next statement is met without
panic. -/
theorem recovery_ends_panic_at_semicolon :
    (firstRead "1 1; print bad;").panicking = true ∧
      (firstRead "1 1; print bad;").synchronize.panicking = false ∧
      ((∃ s t, ReadsClause .declaration (firstRead "1 1; print bad;").synchronize
          ((firstRead "1 1; print bad;").synchronize.readDeclaration 40).2 s t) ∨
        ∃ found, found ≠ [] ∧
        ((firstRead "1 1; print bad;").synchronize.readDeclaration 40).2.diagnostics =
          found ++ (firstRead "1 1; print bad;").synchronize.diagnostics) := by
  have hstream : (firstRead "1 1; print bad;").stream =
      [⟨.number, "1", 1⟩, ⟨.semicolon, ";", 1⟩, ⟨.kwPrint, "print", 1⟩, ⟨.identifier, "bad", 1⟩,
        ⟨.semicolon, ";", 1⟩, .eof 1] := by
    decide +kernel
  have hstates : (firstRead "1 1; print bad;").panicking = true ∧
      (firstRead "1 1; print bad;").synchronize.panicking = false ∧
      (firstRead "1 1; print bad;").synchronize.current.kind ≠ .eof ∧
      4 * (firstRead "1 1; print bad;").synchronize.stream.length + 3 ≤ 40 := by
    decide +kernel
  generalize (firstRead "1 1; print bad;") = p at hstream hstates ⊢
  obtain ⟨hpanics, hcalm, heof, hn⟩ := hstates
  obtain ⟨skipped, -, -, -, hiff, -, hreports⟩ := recovery_ends_panic_iff p
  have horderly : Orderly p.stream := by
    rw [hstream]
    exact ⟨⟨[⟨.number, "1", 1⟩, ⟨.semicolon, ";", 1⟩, ⟨.kwPrint, "print", 1⟩,
      ⟨.identifier, "bad", 1⟩, ⟨.semicolon, ";", 1⟩], .eof 1, rfl, rfl, by decide⟩, by decide⟩
  exact ⟨hpanics, hcalm, hreports (hiff.mp hcalm) horderly heof 40 hn⟩

/-- A script that is refused, with its diagnostics. -/
theorem compile_eq_error {unit : Nat} {globals : List String} {source : String}
    (h : (readTokens unit globals (tokens source)).2.diagnostics ≠ []) :
    compile unit globals source =
      .error ⟨(readTokens unit globals (tokens source)).2.diagnostics.reverse⟩ := by
  rw [compile, compileTokens]
  simp [List.isEmpty_iff, h]

/-- A bad character between an error and the next semicolon: recovery ends before `print` in panic,
and the undefined variable behind it is not reported, although it is when it comes alone. -/
theorem recovery_ends_in_panic :
    ((firstRead "1 1 @; print bad;").panicking = true ∧
      (firstRead "1 1 @; print bad;").synchronize.panicking = true ∧
      (firstRead "1 1 @; print bad;").synchronize.current.kind = .kwPrint) ∧
    compile 0 [] "1 1 @; print bad;" = .error
      ⟨[⟨1, .at "1", .expected "';' after expression"⟩,
        ⟨1, .nowhere, .lexical "Unexpected character '@'."⟩]⟩ ∧
    compile 0 [] "print bad;" = .error ⟨[⟨1, .at "bad", .undefinedVariable "bad"⟩]⟩ := by
  have hpanics : (firstRead "1 1 @; print bad;").panicking = true ∧
      (firstRead "1 1 @; print bad;").synchronize.panicking = true ∧
      (firstRead "1 1 @; print bad;").synchronize.current.kind = .kwPrint := by
    decide +kernel
  have htwo : (readTokens 0 [] (tokens "1 1 @; print bad;")).2.diagnostics =
      [⟨1, .nowhere, .lexical "Unexpected character '@'."⟩,
        ⟨1, .at "1", .expected "';' after expression"⟩] := by
    decide +kernel
  have hone : (readTokens 0 [] (tokens "print bad;")).2.diagnostics =
      [⟨1, .at "bad", .undefinedVariable "bad"⟩] := by
    decide +kernel
  refine ⟨hpanics, ?_, ?_⟩
  · rw [compile_eq_error (by simp [htwo]), htwo]
    rfl
  · rw [compile_eq_error (by simp [hone]), hone]
    rfl

end ParseState

end EntityScript
