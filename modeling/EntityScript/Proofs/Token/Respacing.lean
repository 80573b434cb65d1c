/-
# Sources written with single spaces

A token without its line is its kind and its text (`Token.face`).  In a source without bad text the
texts of the tokens are the lexemes, and every form is the longest one where nothing or a space
comes after it (`Form.longest_before`).  So the texts of the tokens with single spaces between them
have the same tokens, on other lines (`faces_respaced`).
-/
import EntityScript.Proofs.Token.Lexemes

namespace EntityScript

/-- A token apart from its line. -/
def Token.face (t : Token) : TokenKind × String :=
  (t.kind, t.text)

/-- The texts of the tokens of a source, the end token aside, with single spaces between them. -/
def respaced (source : String) : String :=
  " ".intercalate ((tokens source).dropLast.map Token.text)

namespace Form

variable {u v rest : List Char} {kind : TokenKind}

/-- Only strings have spaces in them. -/
theorem string_of_space (h : Form u kind) (hspace : ' ' ∈ u) : ∃ cs, u = '"' :: cs ++ ['"'] ∧
    '"' ∉ cs := by
  obtain ⟨c, v, rfl⟩ := List.exists_cons_of_ne_nil h.ne_nil
  rcases h.classes with ⟨-, -, hds | ⟨ds, e, es, heq, hds, hes⟩⟩ | ⟨hc, hv, -⟩ | ⟨rfl, -,
    cs, rfl, hcs⟩ | ⟨short, long, hc, hv⟩
  · exact absurd (hds _ hspace) (by decide)
  · rw [heq, List.mem_append, List.mem_cons] at hspace
    rcases hspace with hmem | hpoint | hmem
    · exact absurd (hds _ hmem) (by decide)
    · cases hpoint
    · exact absurd (hes _ hmem) (by decide)
  · rcases List.mem_cons.mp hspace with rfl | hmem
    · exact absurd hc (by decide)
    · exact absurd (hv _ hmem) (by decide)
  · exact ⟨cs, rfl, hcs⟩
  · have hne : ' ' ≠ c := by
      rintro rfl
      cases hc
    rcases hv with ⟨rfl, -⟩ | ⟨rfl, -⟩ <;> simp [hne] at hspace

/-- Before a space, and where nothing comes after it, a form is the longest. -/
theorem longest_before (hu : Form u kind) (hrest : ∀ c, rest.head? = some c → c = ' ')
    (v : List Char) (k : TokenKind) (hv : Form v k) (hbegins : v <+: u ++ rest) :
    v.length ≤ u.length := by
  by_contra hlonger
  obtain ⟨w, rfl⟩ := List.prefix_of_prefix_length_le (List.prefix_append u rest) hbegins (by omega)
  rw [List.prefix_append_right_inj] at hbegins
  cases w with
  | nil => simp at hlonger
  | cons c w =>
    obtain ⟨more, rfl⟩ := hbegins
    obtain rfl := hrest c rfl
    -- what goes on behind a space is a string, so the form itself is one and has its closing quote
    obtain ⟨cs, heq, hcs⟩ := hv.string_of_space (by simp)
    obtain ⟨d, x, rfl⟩ := List.exists_cons_of_ne_nil hu.ne_nil
    obtain ⟨rfl, -⟩ := List.cons.inj heq
    obtain ⟨-, ds, rfl, -⟩ := hu.of_quote
    have hinside : ds ++ '"' :: ' ' :: w = cs ++ ['"'] := by simpa using heq
    have hmem : '"' ∈ (ds ++ '"' :: ' ' :: w).dropLast := by
      rw [List.dropLast_append_of_ne_nil (by simp), List.dropLast_cons_of_ne_nil (by simp)]
      simp
    rw [hinside, List.dropLast_concat] at hmem
    exact hcs hmem

end Form

/-- What is no bad text is a form. -/
theorem Lexeme.form_of_good {rest u : List Char} {kind : TokenKind} {text : String}
    (h : Lexeme rest u kind text) (hgood : kind ≠ .error) :
    Form u kind ∧ text = String.ofList u := by
  cases h with
  | form hu _ => exact ⟨hu, rfl⟩
  | unterminated _ _ => exact absurd rfl hgood
  | unexpected _ _ _ _ => exact absurd rfl hgood

namespace Made

variable {before text : List Char} {ts : List Token}

/-- A form, and then what begins with a space. -/
theorem token_before {gap u rest : List Char} {kind : TokenKind} (hgap : Separates (u ++ rest) gap)
    (hu : Form u kind) (hrest : ∀ c, rest.head? = some c → c = ' ')
    (hts : Made (before ++ gap ++ u) rest ts) :
    Made before (gap ++ u ++ rest)
      (⟨kind, String.ofList u, 1 + (before ++ gap ++ u).count '\n'⟩ :: ts) :=
  .token hgap (.form hu (hu.longest_before hrest)) hts

/-- The end comes last, so the first of several tokens is not the end. -/
theorem dropLast_cons (h : Made before text ts) (t : Token) :
    (t :: ts).dropLast = t :: ts.dropLast :=
  List.dropLast_cons_of_ne_nil (by cases h <;> simp)

/-- The texts of tokens, with a space before each of them. -/
def spaced (ts : List Token) : List Char :=
  ts.flatMap fun t => ' ' :: t.text.toList

/-- What is written behind a token starts with a space. -/
theorem head_spaced (ts : List Token) (c : Char) (hc : (spaced ts).head? = some c) : c = ' ' := by
  cases ts with
  | nil => cases hc
  | cons t ts => exact (Option.some.inj hc).symm

/-- The texts of the tokens of a text without bad text are made of the same tokens. -/
theorem made_spaced (h : Made before text ts) (hgood : ∀ t ∈ ts, t.kind ≠ .error)
    (before' : List Char) :
    ∃ ts', Made before' (spaced ts.dropLast) ts' ∧ ts'.map Token.face = ts.map Token.face := by
  induction h generalizing before' with
  | last _ => exact ⟨_, .last .nil, rfl⟩
  | @token before gap u rest kind word ts _ hu hts ih =>
    obtain ⟨hkind, hrest⟩ := List.forall_mem_cons.mp hgood
    obtain ⟨hform, rfl⟩ := hu.form_of_good hkind
    obtain ⟨ts', hmade, hfaces⟩ := ih hrest (before' ++ [' '] ++ u)
    have hspaced : spaced
      ((⟨kind, String.ofList u, 1 + (before ++ gap ++ u).count '\n'⟩ :: ts).dropLast) =
        [' '] ++ u ++ spaced ts.dropLast := by
      rw [hts.dropLast_cons]
      simp [spaced]
    rw [hspaced]
    refine ⟨_, token_before (.blank (by decide) .nil) hform (head_spaced _) hmade, ?_⟩
    rw [List.map_cons, List.map_cons, hfaces]
    rfl

/-- Tokens with single spaces between them: the first, and each other one behind a space. -/
theorem intercalate_space (t : Token) (ts : List Token) :
    [' '].intercalate ((t :: ts).map fun t => t.text.toList) = t.text.toList ++ spaced ts := by
  induction ts generalizing t with
  | nil => simp [spaced]
  | cons u ts ih =>
    have hrest := ih u
    rw [List.map_cons] at hrest
    rw [List.map_cons, List.map_cons, List.intercalate_cons_cons, hrest]
    simp [spaced]

/-- The same with a space only between two texts. -/
theorem made_respaced (h : Made before text ts) (hgood : ∀ t ∈ ts, t.kind ≠ .error) :
    ∃ ts', Made [] ([' '].intercalate (ts.dropLast.map fun t => t.text.toList)) ts' ∧
      ts'.map Token.face = ts.map Token.face := by
  cases h with
  | last _ => exact ⟨_, .last .nil, rfl⟩
  | @token _ gap u rest kind word ts _ hu hts =>
    obtain ⟨hkind, hrest⟩ := List.forall_mem_cons.mp hgood
    obtain ⟨hform, rfl⟩ := hu.form_of_good hkind
    obtain ⟨ts', hmade, hfaces⟩ := hts.made_spaced hrest ([] ++ [] ++ u)
    rw [hts.dropLast_cons, intercalate_space, String.toList_ofList]
    refine ⟨_, token_before .nil hform (head_spaced _) hmade, ?_⟩
    rw [List.map_cons, List.map_cons, hfaces]
    rfl

end Made

/-- Without bad text, the texts of the tokens with single spaces between them have the same tokens,
on other lines. -/
theorem faces_respaced {source : String} (hgood : ∀ t ∈ tokens source, t.kind ≠ .error) :
    (tokens (respaced source)).map Token.face = (tokens source).map Token.face := by
  obtain ⟨ts, hmade, hfaces⟩ := (made_tokens source).made_respaced hgood
  have htext : (respaced source).toList =
    [' '].intercalate ((tokens source).dropLast.map fun t => t.text.toList) := by
    rw [respaced, String.toList_intercalate, List.map_map]
    rfl
  rw [← htext] at hmade
  rw [tokens_of_made hmade, hfaces]

end EntityScript
