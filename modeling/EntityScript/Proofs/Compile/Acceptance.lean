/-
# What the compiler accepts

The compiler gives a program exactly for the scripts of the language: no part of the source is bad
text, the tokens are spelled by the grammar, and the script keeps the static rules.  The program is
then the one the rules give, whose functions have the code of their bodies in post-order.
-/
import EntityScript.Proofs.Compile.StmtCompleteness
import EntityScript.Proofs.Compile.StmtSoundness
import EntityScript.Proofs.Token.Scanning

namespace EntityScript

open ParseState

/-- The tokens of a source are orderly. -/
theorem orderly_tokens (source : String) : Orderly (tokens source) := by
  obtain ⟨us, t, h, ht, hus⟩ := tokens_spec source
  refine ⟨⟨us, t, h, ht, fun u hu => (hus u hu).1⟩, fun u hu hk => ?_⟩
  rw [h] at hu
  rcases List.mem_append.mp hu with hu | hu
  · exact (hus u hu).2 hk
  · obtain rfl : u = t := by simpa using hu
    rw [ht] at hk
    simp at hk

/-- The first token of a source becomes the current one, unless it is bad. -/
theorem stream_start {unit : Nat} {globals : List String} {ts : List Token} (hts : ts ≠ [])
    (hc : (ParseState.start unit globals ts).advance.diagnostics = []) :
    (ParseState.start unit globals ts).advance.stream = ts ∧
      (ParseState.start unit globals ts).advance.context = .start unit globals := by
  obtain ⟨t, us, rfl⟩ := List.exists_cons_of_ne_nil hts
  have hs : (ParseState.start unit globals (t :: us)).Sane := by
    intro h
    cases h
  by_cases ht : t.kind = .error
  · have hf : (ParseState.start unit globals (t :: us)).advance.diagnostics ≠ [] := by
      have hr : (ParseState.start unit globals (t :: us)).rest = t :: us := rfl
      rw [advance, hr, shift, if_pos ht]
      exact (keeps_shift us _).failed (complainAt_failed hs t _)
    exact absurd hc hf
  · have hr : (ParseState.start unit globals (t :: us)).rest = t :: us := rfl
    rw [advance_eq hr ht]
    exact ⟨rfl, rfl⟩

/-- A source that compiles is spelled by the grammar and keeps the static rules. -/
theorem spelled_of_compileTokens {unit : Nat} {globals : List String} {ts : List Token}
    {p : Program} (ho : Orderly ts) (h : compileTokens unit globals ts = .ok p) :
    ∃ s : Script, s.Spelled ts ∧ s.program? unit globals = some p := by
  unfold compileTokens readTokens at h
  rcases hx : (ParseState.start unit globals ts).advance.readScript
    (readingBudget ts) .empty with ⟨b, q⟩
  rw [hx] at h
  simp only at h
  split at h
  · next hempty =>
    have hc : q.diagnostics = [] := List.isEmpty_iff.mp hempty
    have hk := keeps_readScript (readingBudget ts) .empty (ParseState.start unit globals ts).advance
    rw [hx] at hk
    have hne : ts ≠ [] := by
      obtain ⟨us, t, rfl, -⟩ := ho.ends
      simp
    obtain ⟨hstream, hctx⟩ := stream_start hne (hk.clean hc)
    have hready : Ready (ParseState.start unit globals ts).advance := by
      refine ⟨(keeps_advance _).sane (fun hpan => by cases hpan), ?_⟩
      rw [hstream]
      exact ho
    obtain ⟨ss, us, t, hts, ht, hline, hsp, hres⟩ := readScript_clean hready
      (by rw [hstream, readingBudget]; omega) hx hc
    rw [hstream] at hts
    rw [hctx] at hres
    refine ⟨⟨ss, t.line⟩, ⟨us, t, hts, ht, rfl, hsp⟩, ?_⟩
    have hp := Except.ok.inj h
    rw [Function.assemble_eq, hline] at hp
    exact Script.program?_eq_some_iff.mpr ⟨_, _, hres, hp.symm⟩
  · simp at h

/-- Before the tokens of a source without bad text. -/
theorem stands_start {unit : Nat} {globals : List String} {ts : List Token} (hts : ts ≠ [])
    (hgood : ∀ t ∈ ts, t.kind ≠ .error) :
    Stands (ParseState.start unit globals ts).advance ts (.start unit globals) := by
  obtain ⟨u, vs, rfl⟩ := List.exists_cons_of_ne_nil hts
  have hr : (ParseState.start unit globals (u :: vs)).rest = u :: vs := rfl
  rw [advance_eq hr (hgood u List.mem_cons_self)]
  exact ⟨rfl, rfl, fun v hv => hgood v (List.mem_cons_of_mem u hv), rfl, rfl⟩

/-- A source without bad text that is spelled by the grammar and keeps the static rules compiles. -/
theorem compileTokens_of_spelled {unit : Nat} {globals : List String} {ts : List Token}
    {p : Program} {s : Script} (hgood : ∀ t ∈ ts, t.kind ≠ .error) (hs : s.Spelled ts)
    (hp : s.program? unit globals = some p) : compileTokens unit globals ts = .ok p := by
  obtain ⟨us, t, rfl, ht, hline, hsp⟩ := hs
  obtain ⟨b, c, hb, rfl⟩ := Script.program?_eq_some_iff.mp hp
  have hstart := @stands_start unit globals (us ++ [t]) (by simp) hgood
  obtain ⟨m, q, hm, -, hread, hq⟩ := fulfils hsp (n := readingBudget (us ++ [t])) hstart hb
    (by simp [ht]) (by rw [readingBudget, List.length_append]; omega)
  obtain ⟨k, rfl⟩ : ∃ k, m = k + 1 := by
    refine ⟨m - 1, ?_⟩
    rw [readingBudget, List.length_append] at hm
    omega
  have hend : readScript (k + 1) b q = (b, q.advance) := by
    rw [readScript, if_pos (by rw [hq.at?, ht]; rfl)]
  have hadv : q.advance = shift [] q := by rw [advance, hq.rest]
  have hclean : q.advance.diagnostics = [] := by
    rw [hadv]
    exact hq.clean
  have hctx : q.advance.context = c := by
    rw [hadv]
    exact hq.context
  have hlast : q.advance.line = s.lastLine := by rw [hq.line, hline]
  unfold compileTokens readTokens
  rw [hread, hend]
  simp only [hclean, List.isEmpty_nil, if_true, Function.assemble_eq, hlast]
  subst hctx
  rfl

/-- The compiler accepts exactly the scripts of the language, and gives each of them the program
that the static rules and the order of the code say. -/
theorem compile_eq_ok_iff (unit : Nat) (globals : List String) (source : String) (p : Program) :
    compile unit globals source = .ok p ↔
      (∀ t ∈ tokens source, t.kind ≠ .error) ∧
        ∃ s : Script, s.Spelled (tokens source) ∧ s.program? unit globals = some p := by
  constructor
  · intro h
    obtain ⟨s, hs, hp⟩ := spelled_of_compileTokens (orderly_tokens source) h
    refine ⟨?_, s, hs, hp⟩
    obtain ⟨us, t, heq, ht, -, hsp⟩ := hs
    rw [heq]
    intro u hu
    rcases List.mem_append.mp hu with hu | hu
    · exact hsp.good u hu
    · obtain rfl : u = t := by simpa using hu
      simp [ht]
  · rintro ⟨hgood, s, hs, hp⟩
    exact compileTokens_of_spelled hgood hs hp

/-! ## Sources that are written out -/

section

variable {ε α : Type} {x : Except ε α}

/-- A result that is there is one without an error. -/
theorem toOption_eq_some_iff {a : α} : x.toOption = some a ↔ x = .ok a := by
  cases x with
  | error e => exact iff_of_false nofun nofun
  | ok b =>
    exact ⟨fun h => congrArg Except.ok (Option.some.inj h),
      fun h => congrArg some (Except.ok.inj h)⟩

/-- What compiles has a program. -/
theorem exists_of_isOk (h : x.isOk = true) : ∃ a, x = .ok a := by
  cases x with
  | error e => cases h
  | ok a => exact ⟨a, rfl⟩

end

end EntityScript
