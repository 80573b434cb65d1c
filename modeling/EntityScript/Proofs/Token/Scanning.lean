/-
# What scanning gives

Every token but the end token takes up a character, so scanning a source ends with the only end
token of the list.  A name has at least one character.
-/
import EntityScript.Token.Scanner
import Mathlib.Data.List.TakeDrop
import Mathlib.Data.List.TakeWhile
import Mathlib.Tactic.Common

namespace EntityScript

namespace Scanner

/-- Blanks are only skipped. -/
theorem length_skipBlank (comment : Bool) (cs : List Char) (line : Nat) :
    (skipBlank comment cs line).rest.length ≤ cs.length := by
  induction cs generalizing comment line with
  | nil => simp [skipBlank]
  | cons c rest ih =>
    rw [skipBlank]
    split
    · exact Nat.le_succ_of_le (ih _ _)
    · split
      · exact Nat.le_succ_of_le (ih _ _)
      · split
        · exact Nat.le_succ_of_le (ih _ _)
        · exact Nat.le_refl _

/-- What is taken while a test holds of the first character leaves less than there was. -/
theorem length_span_snd {p : Char → Bool} {c : Char} (hc : p c = true) (cs : List Char) :
    ((c :: cs).span p).2.length ≤ cs.length := by
  rw [List.span_eq_takeWhile_dropWhile]
  simp only [List.dropWhile_cons, hc, if_true]
  exact List.length_dropWhile_le p cs

/-- What starts with the property has a part with it. -/
theorem span_fst_ne_nil {p : Char → Bool} {c : Char} (hc : p c = true) (cs : List Char) :
    ((c :: cs).span p).1 ≠ [] := by
  rw [List.span_eq_takeWhile_dropWhile]
  simp [hc]

/-- A number takes at least its first digit. -/
theorem length_takeNumber_snd {c : Char} (hc : Decimal.isDigit c = true) (cs : List Char) :
    (takeNumber (c :: cs)).2.length ≤ cs.length := by
  have hspan := length_span_snd hc cs
  unfold takeNumber
  rcases hs : (c :: cs).span Decimal.isDigit with ⟨whole, rest⟩
  rw [hs] at hspan
  simp only at hspan ⊢
  split
  · next d more =>
    split
    · next hd =>
      have hplaces := length_span_snd hd more
      simp only [List.length_cons] at hspan
      simp only
      omega
    · exact hspan
  · exact hspan

/-- No operator is the end of a source or a name. -/
theorem operator_kinds {c : Char} {short : TokenKind} {long : Option TokenKind}
    (h : operator? c = some (short, long)) :
    (short ≠ .eof ∧ short ≠ .identifier) ∧ ∀ k, long = some k → k ≠ .eof ∧ k ≠ .identifier := by
  unfold operator? at h
  split at h <;> simp at h <;> obtain ⟨rfl, rfl⟩ := h <;> simp

/-- No word is the end of a source. -/
theorem ofWord_ne_eof (word : String) : TokenKind.ofWord word ≠ .eof := by
  unfold TokenKind.ofWord
  cases h : keywords.lookup word with
  | none => simp
  | some k =>
    rw [List.lookup_eq_some_iff] at h
    obtain ⟨before, after, hk, -⟩ := h
    have hmem : (word, k) ∈ keywords := by rw [hk]; simp
    simp [keywords] at hmem
    rcases hmem with ⟨-, rfl⟩ | ⟨-, rfl⟩ | ⟨-, rfl⟩ | ⟨-, rfl⟩ | ⟨-, rfl⟩ | ⟨-, rfl⟩ | ⟨-, rfl⟩ |
      ⟨-, rfl⟩ | ⟨-, rfl⟩ | ⟨-, rfl⟩ | ⟨-, rfl⟩ | ⟨-, rfl⟩ | ⟨-, rfl⟩ | ⟨-, rfl⟩ <;> simp

/-- A token that begins with a character is not the end token, has a text if it is a name, and
leaves less than there was. -/
theorem takeToken_spec (c : Char) (rest : List Char) (line : Nat) :
    (takeToken c rest line).1.kind ≠ .eof ∧
      ((takeToken c rest line).1.kind = .identifier → (takeToken c rest line).1.text ≠ "") ∧
      (takeToken c rest line).2.rest.length ≤ rest.length := by
  unfold takeToken
  split
  · next short long h =>
    obtain ⟨⟨hs, hsi⟩, hl⟩ := operator_kinds h
    obtain ⟨hl, hli⟩ := hl long rfl
    split
    · exact ⟨hl, fun hk => absurd hk hli, by simp⟩
    · exact ⟨hs, fun hk => absurd hk hsi, Nat.le_refl _⟩
  · next short h =>
    obtain ⟨⟨hs, hsi⟩, -⟩ := operator_kinds h
    exact ⟨hs, fun hk => absurd hk hsi, Nat.le_refl _⟩
  · split
    · have hlen : (rest.span (· != '"')).2.length ≤ rest.length := by
        rw [List.span_eq_takeWhile_dropWhile]
        exact List.length_dropWhile_le _ rest
      rcases hs : rest.span (· != '"') with ⟨inside, after⟩
      rw [hs] at hlen
      simp only at hlen ⊢
      split
      · simp
      · refine ⟨by simp, by simp, ?_⟩
        rw [List.length_cons] at hlen
        simp only
        omega
    · split
      · next hd => exact ⟨by simp, by simp, length_takeNumber_snd hd rest⟩
      · split
        · next hn =>
          have hp : isNamePart c = true := by simp [isNamePart, hn]
          refine ⟨ofWord_ne_eof _, fun _ => ?_, length_span_snd hp rest⟩
          have hne := span_fst_ne_nil hp rest
          intro he
          exact hne (String.ofList_eq_empty_iff.mp he)
        · simp

end Scanner

namespace Cursor

/-- Reading a token gives the end token or takes up a character. -/
theorem next_spec (c : Cursor) :
    (c.next.1.kind = .eof ∨ c.next.2.rest.length < c.rest.length) ∧
      (c.next.1.kind = .identifier → c.next.1.text ≠ "") ∧
      (c.rest = [] → c.next.1.kind = .eof) := by
  have hlen := Scanner.length_skipBlank false c.rest c.line
  unfold next
  generalize hd : Scanner.skipBlank false c.rest c.line = d at hlen ⊢
  simp only
  split
  · next h => exact ⟨.inl rfl, by simp [Token.eof], fun _ => rfl⟩
  · next first rest h =>
    obtain ⟨-, hid, htake⟩ := Scanner.takeToken_spec first rest d.line
    rw [h, List.length_cons] at hlen
    refine ⟨.inr (by omega), hid, fun hnil => ?_⟩
    rw [hnil] at hlen
    simp at hlen

/-- Draining a cursor gives the tokens up to the end token. -/
theorem drain_spec (n : Nat) (c : Cursor) (read : List Token) (h : c.rest.length ≤ n) :
    ∃ us t, c.drain n read = read.reverse ++ us ++ [t] ∧ t.kind = .eof ∧
      ∀ u ∈ us, u.kind ≠ .eof ∧ (u.kind = .identifier → u.text ≠ "") := by
  induction n generalizing c read with
  | zero =>
    have hnil : c.rest = [] := List.length_eq_zero_iff.mp (Nat.le_zero.mp h)
    obtain ⟨-, -, heof⟩ := c.next_spec
    exact ⟨[], c.next.1, by simp [drain], heof hnil, by simp⟩
  | succ n ih =>
    obtain ⟨hnext, hid, -⟩ := c.next_spec
    rw [drain]
    by_cases heof : c.next.1.kind = .eof
    · exact ⟨[], c.next.1, by simp [heof], heof, by simp⟩
    · obtain ⟨us, t, hd, ht, hus⟩ := ih c.next.2 (c.next.1 :: read)
        (by have := hnext.resolve_left heof; omega)
      refine ⟨c.next.1 :: us, t, ?_, ht, ?_⟩
      · simp [heof, hd]
      · intro u hu
        rcases List.mem_cons.mp hu with rfl | hu
        · exact ⟨heof, hid⟩
        · exact hus u hu

end Cursor

/-- The tokens of a source end with its only end token, and its names have characters. -/
theorem tokens_spec (source : String) :
    ∃ us t, tokens source = us ++ [t] ∧ t.kind = .eof ∧
      ∀ u ∈ us, u.kind ≠ .eof ∧ (u.kind = .identifier → u.text ≠ "") := by
  obtain ⟨us, t, h, ht, hus⟩ := (Cursor.start source).drain_spec _ [] (Nat.le_refl _)
  exact ⟨us, t, h, ht, hus⟩

end EntityScript
