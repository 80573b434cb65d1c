/-
# Sources joined by a new line

A new line ends every token and every comment.  So if a source without bad text is followed by a new
line and another source, the tokens of the first come first, and the tokens of the second come on
later lines (`tokens_joined`).
-/
import EntityScript.Proofs.Token.Scanning

namespace EntityScript

/-- A token some lines further down. -/
def Token.later (k : Nat) (t : Token) : Token :=
  { t with line := t.line + k }

namespace Cursor

/-- The same text some lines further down. -/
def later (k : Nat) (c : Cursor) : Cursor :=
  ⟨c.rest, c.line + k⟩

/-- A cursor with more text behind a new line. -/
def followed (more : List Char) (c : Cursor) : Cursor :=
  ⟨c.rest ++ '\n' :: more, c.line⟩

end Cursor

namespace Scanner

/-! ## Lines -/

/-- Blanks are skipped alike on later lines. -/
theorem skipBlank_later (comment : Bool) (cs : List Char) (line k : Nat) :
    skipBlank comment cs (line + k) = (skipBlank comment cs line).later k := by
  induction cs generalizing comment line with
  | nil => rfl
  | cons c rest ih =>
    simp only [skipBlank]
    split
    · rw [Nat.add_right_comm, ih]
    · split
      · exact ih _ _
      · split
        · exact ih _ _
        · rfl

/-- A token is taken alike on later lines. -/
theorem takeToken_later (c : Char) (rest : List Char) (line k : Nat) :
    takeToken c rest (line + k) =
    ((takeToken c rest line).1.later k, (takeToken c rest line).2.later k) := by
  simp only [takeToken, Nat.add_right_comm line k]
  split
  · split <;> rfl
  · rfl
  · split
    · split <;> rfl
    · split
      · rfl
      · split <;> rfl

/-! ## What follows a new line -/

/-- What is taken while a test holds stays the same if it does not reach what is appended, or if the
test fails there. -/
theorem span_append {p : Char → Bool} {cs more : List Char}
    (h : (cs.span p).2 = [] → (more.span p).1 = []) :
    (cs ++ more).span p = ((cs.span p).1, (cs.span p).2 ++ more) := by
  simp only [List.span_eq_takeWhile_dropWhile] at h ⊢
  induction cs with
  | nil =>
    have htake := h rfl
    have hdrop := List.takeWhile_append_dropWhile (p := p) (l := more)
    rw [htake, List.nil_append] at hdrop
    exact Prod.mk.injEq .. ▸ ⟨htake, hdrop⟩
  | cons c cs ih =>
    cases hc : p c with
    | false => simp [hc]
    | true =>
      simp only [List.dropWhile_cons, hc] at h
      obtain ⟨htake, hdrop⟩ := Prod.mk.inj (ih h)
      simp [hc, htake, hdrop]

theorem span_followed {p : Char → Bool} (hp : p '\n' = false) (cs more : List Char) :
    (cs ++ '\n' :: more).span p = ((cs.span p).1, (cs.span p).2 ++ '\n' :: more) :=
  span_append fun _ => by simp [List.span_eq_takeWhile_dropWhile, hp]

theorem takeNumber_followed (cs more : List Char) :
    takeNumber (cs ++ '\n' :: more) = ((takeNumber cs).1, (takeNumber cs).2 ++ '\n' :: more) := by
  have hdigit : Decimal.isDigit '\n' = false := by decide
  unfold takeNumber
  rw [span_followed hdigit]
  rcases cs.span Decimal.isDigit with ⟨whole, rest⟩
  cases rest with
  | nil => rfl
  | cons c rest =>
    by_cases hc : c = '.'
    · subst hc
      cases rest with
      | nil => rfl
      | cons d rest =>
        have hspan := span_followed hdigit (d :: rest) more
        simp only [List.cons_append] at hspan ⊢
        split
        · rw [hspan]
        · rfl
    · simp only [List.cons_append]
      split
      · next heq => exact absurd (List.cons.inj heq).1 hc
      · split
        · next heq => exact absurd (List.cons.inj heq).1 hc
        · rfl

/-- A token that is not bad text ends before the new line. -/
theorem takeToken_followed (c : Char) (rest more : List Char) (line : Nat)
    (h : (takeToken c rest line).1.kind ≠ .error) :
    takeToken c (rest ++ '\n' :: more) line =
      ((takeToken c rest line).1, (takeToken c rest line).2.followed more) := by
  unfold takeToken at h ⊢
  split
  · next short long _ =>
    cases rest with
    | nil => rfl
    | cons d rest =>
      -- an operator looks at one more character, which is none of what follows
      by_cases hd : d = '='
      · subst hd
        rfl
      · simp only [List.cons_append]
        split
        · next heq => exact absurd (List.cons.inj heq).1 hd
        · split
          · next heq => exact absurd (List.cons.inj heq).1 hd
          · rfl
  · rfl
  · next hnone =>
    simp only [hnone] at h
    by_cases hquote : c = '"'
    · -- a string has its closing quote
      simp only [if_pos hquote] at h ⊢
      have happend (hend : (rest.span (· != '"')).2 = [] → (('\n' :: more).span (· != '"')).1 =
        []) := span_append hend
      rcases hspan : rest.span (· != '"') with ⟨inside, after⟩
      rw [hspan] at h happend
      cases after with
      | nil => exact absurd rfl h
      | cons quote after =>
        rw [happend nofun]
        rfl
    · simp only [if_neg hquote]
      split
      · rw [← List.cons_append, takeNumber_followed]
        rfl
      · split
        · rw [← List.cons_append, span_followed (p := isNamePart) (by decide)]
          rfl
        · rfl

/-- Blanks at the end of the first text go on to the new line. -/
theorem skipBlank_followed (comment : Bool) (cs more : List Char) (line : Nat) :
    skipBlank comment (cs ++ '\n' :: more) line =
      if (skipBlank comment cs line).rest = [] then skipBlank false more
      ((skipBlank comment cs line).line + 1) else (skipBlank comment cs line).followed more := by
  induction cs generalizing comment line with
  | nil => simp [skipBlank]
  | cons c cs ih =>
    simp only [List.cons_append, skipBlank]
    split
    · exact ih _ _
    · split
      · exact ih _ _
      · split
        · exact ih _ _
        · rfl

end Scanner

namespace Cursor

open Scanner

variable {c d : Cursor} {t : Token} {us ts : List Token}

/-- The next token is the same, on a later line. -/
theorem next_later (c : Cursor) (k : Nat) :
    (c.later k).next = (c.next.1.later k, c.next.2.later k) := by
  simp only [next, later, skipBlank_later]
  generalize skipBlank false c.rest c.line = d
  cases hrest : d.rest with
  | nil => simp [hrest, Token.eof, Token.later]
  | cons first rest => simp only [takeToken_later]; rfl

/-- The next token comes before the new line, if there is one before it that is not bad text. -/
theorem next_followed (more : List Char) (heof : c.next.1.kind ≠ .eof)
    (hgood : c.next.1.kind ≠ .error) :
    (c.followed more).next = (c.next.1, c.next.2.followed more) := by
  simp only [next, followed, skipBlank_followed] at heof hgood ⊢
  generalize skipBlank false c.rest c.line = d at heof hgood ⊢
  cases hrest : d.rest with
  | nil => simp only [hrest] at heof; exact absurd rfl heof
  | cons first rest =>
    simp only [hrest] at hgood
    simp [followed, takeToken_followed _ _ _ _ hgood]

/-- If no token comes before the new line, what follows it is read. -/
theorem next_ended (more : List Char) (heof : c.next.1.kind = .eof) :
    (c.followed more).next = (Cursor.next ⟨more, c.next.1.line + 1⟩) := by
  simp only [next, followed, skipBlank_followed] at heof ⊢
  generalize skipBlank false c.rest c.line = d at heof ⊢
  cases hrest : d.rest with
  | nil => simp [Token.eof]
  | cons first rest =>
    simp only [hrest] at heof
    exact absurd heof (takeToken_spec first rest d.line).1

/-! ## Rows of tokens -/

/-- From a cursor the given tokens are read, with the end token last. -/
inductive Scans : Cursor → List Token → Prop where
  | last {c : Cursor} : c.next.1.kind = .eof → Scans c [c.next.1]
  | cons {c : Cursor} {ts : List Token} : c.next.1.kind ≠ .eof → Scans c.next.2 ts →
    Scans c (c.next.1 :: ts)

namespace Scans

/-- What is read depends on the next token and on what follows it. -/
theorem congr (h : Scans c ts) (hnext : d.next = c.next) : Scans d ts := by
  cases h with
  | last heof =>
    rw [← hnext] at heof ⊢
    exact .last heof
  | cons heof hrest =>
    rw [← hnext] at heof hrest ⊢
    exact .cons heof hrest

/-- Scanning is the same on later lines. -/
theorem later (h : Scans c ts) (k : Nat) : Scans (c.later k) (ts.map (Token.later k)) := by
  induction h with
  | @last c heof =>
    have hlast := Scans.last (c := c.later k)
    rw [next_later] at hlast
    exact hlast heof
  | @cons c ts heof _ ih =>
    have hcons (hne : (c.later k).next.1.kind ≠ .eof)
      (hrest : Scans (c.later k).next.2 (ts.map (Token.later k))) :=
      Scans.cons hne hrest
    rw [next_later] at hcons
    exact hcons heof ih

/-- The tokens before a new line, and then those behind it. -/
theorem followed (h : Scans c (us ++ [t])) (hgood : ∀ u ∈ us, u.kind ≠ .error) {more : List Char}
    (hmore : Scans ⟨more, t.line + 1⟩ ts) : Scans (c.followed more) (us ++ ts) := by
  induction us generalizing c with
  | nil =>
    cases h with
    | last heof => exact hmore.congr (next_ended more heof)
    | cons _ hnil => cases hnil
  | cons u us ih =>
    rw [List.cons_append] at h
    generalize hvs : us ++ [t] = vs at h
    cases h with
    | last => cases us <;> cases hvs
    | cons heof hrest =>
      rw [← hvs] at hrest
      have hcons (hne : (c.followed more).next.1.kind ≠ .eof)
        (hts : Scans (c.followed more).next.2 (us ++ ts)) :=
        Scans.cons hne hts
      rw [next_followed more heof (hgood _ List.mem_cons_self)] at hcons
      exact hcons heof (ih hrest fun u hu => hgood u (List.mem_cons_of_mem _ hu))

/-- The tokens that are scanned are the ones that the scanner collects. -/
theorem drain (h : Scans c ts) {n : Nat} (hn : c.rest.length ≤ n) (read : List Token) :
    c.drain n read = read.reverse ++ ts := by
  induction h generalizing n read with
  | @last c heof => cases n <;> simp [Cursor.drain, heof]
  | @cons c ts heof _ ih =>
    have hlt := c.next_spec.1.resolve_left heof
    obtain ⟨n, rfl⟩ : ∃ m, n = m + 1 := ⟨n - 1, by omega⟩
    simp only [Cursor.drain, if_neg heof]
    rw [ih (by omega)]
    simp

end Scans

/-- Scanning comes to an end from everywhere. -/
theorem exists_scans (c : Cursor) : ∃ ts, Scans c ts := by
  induction hn : c.rest.length using Nat.strong_induction_on generalizing c with
  | h n ih =>
    by_cases heof : c.next.1.kind = .eof
    · exact ⟨_, .last heof⟩
    · obtain ⟨ts, hts⟩ := ih _ (hn ▸ c.next_spec.1.resolve_left heof) c.next.2 rfl
      exact ⟨_, .cons heof hts⟩

/-- The tokens of a source are those scanned from its start. -/
theorem scans_start (source : String) : Scans (start source) (tokens source) := by
  obtain ⟨ts, hts⟩ := exists_scans (start source)
  have htokens : tokens source = ts := hts.drain (Nat.le_refl _) []
  rw [htokens]
  exact hts

end Cursor

open Cursor

/-- The tokens of two sources that are joined by a new line. -/
theorem tokens_joined {source : String} {us : List Token} {t : Token}
    (h : tokens source = us ++ [t]) (hgood : ∀ u ∈ us, u.kind ≠ .error) (more : String) :
    tokens (source ++ "\n" ++ more) = us ++ (tokens more).map (Token.later t.line) := by
  have hsource := scans_start source
  rw [h] at hsource
  have hmore : Scans ⟨more.toList, t.line + 1⟩ ((tokens more).map (Token.later t.line)) := by
    rw [Nat.add_comm]
    exact (scans_start more).later t.line
  have hstart : start (source ++ "\n" ++ more) = (start source).followed more.toList := by
    simp [start, followed]
  have hjoined := hsource.followed hgood hmore
  rw [← hstart] at hjoined
  exact hjoined.drain (Nat.le_refl _) []

end EntityScript
