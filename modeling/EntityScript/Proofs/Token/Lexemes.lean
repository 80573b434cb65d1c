/-
# Separators and lexemes

A source is a row of separators and lexemes (`Made`).  Separators are white space and comments.  A
lexeme is the longest piece of text that has the form of a token (`Form`); where no piece has one,
it is a string without an end, or a single character (`Lexeme`).  The tokens of a source are those
of its lexemes, each on the line on which its lexeme ends, with the end token last
(`tokens_eq_iff_made`).
-/
import EntityScript.Proofs.Token.Joining
import Mathlib.Data.Bool.AllAny

namespace EntityScript

/-! ## Forms -/

/-- The ten digits. -/
def Digit (c : Char) : Prop :=
  '0' ≤ c ∧ c ≤ '9'

/-- The letters, and the underscore. -/
def Letter (c : Char) : Prop :=
  ('a' ≤ c ∧ c ≤ 'z') ∨ ('A' ≤ c ∧ c ≤ 'Z') ∨ c = '_'

instance : DecidablePred Digit := fun c => inferInstanceAs (Decidable ('0' ≤ c ∧ c ≤ '9'))

instance : DecidablePred Letter := fun c =>
  inferInstanceAs (Decidable (('a' ≤ c ∧ c ≤ 'z') ∨ ('A' ≤ c ∧ c ≤ 'Z') ∨ c = '_'))

/-- The operators, with their kinds. -/
def operators : List (String × TokenKind) :=
  [("(", .leftParen), (")", .rightParen), ("\x7b", .leftBrace), ("\x7d", .rightBrace),
    (",", .comma), (".", .dot),
   ("-", .minus), ("+", .plus), (";", .semicolon), ("/", .slash), ("*", .star), ("!", .bang),
   ("!=", .bangEqual),
   ("=", .equal), ("==", .equalEqual), (">", .greater), (">=", .greaterEqual), ("<", .less),
   ("<=", .lessEqual)]

/-- The forms of tokens, with their kinds. -/
inductive Form : List Char → TokenKind → Prop where
  | whole {ds : List Char} : ds ≠ [] → (∀ d ∈ ds, Digit d) → Form ds .number
  | decimal {ds es : List Char} : ds ≠ [] → (∀ d ∈ ds, Digit d) → es ≠ [] → (∀ e ∈ es, Digit e) →
    Form (ds ++ '.' :: es) .number
  | string {cs : List Char} : '"' ∉ cs → Form ('"' :: cs ++ ['"']) .string
  | operator {op : String} {kind : TokenKind} : (op, kind) ∈ operators → Form op.toList kind
  | keyword {word : String} {kind : TokenKind} : (word, kind) ∈ keywords → Form word.toList kind
  | name {c : Char} {cs : List Char} : Letter c → (∀ d ∈ cs, Letter d ∨ Digit d) →
    (∀ kind, (String.ofList (c :: cs), kind) ∉ keywords) → Form (c :: cs) .identifier

/-- White space and comments before the text `rest`.  A comment goes on to the end of its line. -/
inductive Separates (rest : List Char) : List Char → Prop where
  | nil : Separates rest []
  | blank {c : Char} {gap : List Char} : Text.isBlank c = true → Separates rest gap →
    Separates rest (c :: gap)
  | comment {body gap : List Char} : '\n' ∉ body → (∀ c, (gap ++ rest).head? = some c → c = '\n') →
    Separates rest gap → Separates rest ('#' :: body ++ gap)

/-- The lexeme before the text `rest`, with the kind and the text of its token: the longest form, or
else a string without an end, or a character that nothing begins with. -/
inductive Lexeme (rest : List Char) : List Char → TokenKind → String → Prop where
  | form {u : List Char} {kind : TokenKind} : Form u kind →
    (∀ v k, Form v k → v <+: u ++ rest → v.length ≤ u.length) → Lexeme rest u kind (String.ofList u)
  | unterminated {cs : List Char} : '"' ∉ cs → rest = [] →
    Lexeme rest ('"' :: cs) .error "Unterminated string."
  | unexpected {c : Char} : c ≠ '"' → c ≠ '#' → Text.isBlank c = false →
    (∀ v k, Form v k → ¬ v <+: c :: rest) →
    Lexeme rest [c] .error ("Unexpected character '" ++ String.ofList [c] ++ "'.")

/-- Behind the text `before`, a text is made of separators and of the lexemes of the given tokens,
the last of which is the end token.  A token is on the line on which its lexeme ends. -/
inductive Made : (before text : List Char) → List Token → Prop where
  | last {before gap : List Char} : Separates [] gap →
    Made before gap [.eof (1 + (before ++ gap).count '\n')]
  | token {before gap u rest : List Char} {kind : TokenKind} {text : String} {ts : List Token} :
    Separates (u ++ rest) gap → Lexeme rest u kind text → Made (before ++ gap ++ u) rest ts →
    Made before (gap ++ u ++ rest) (⟨kind, text, 1 + (before ++ gap ++ u).count '\n'⟩ :: ts)

namespace Scanner

/-! ## Characters -/

theorem isDigit_iff {c : Char} : Decimal.isDigit c = true ↔ Digit c := by
  simp [Decimal.isDigit, Digit]

/-- A name starts with a letter. -/
theorem isNameStart_iff {c : Char} : isNameStart c = true ↔ Letter c := by
  have hupper : c.isUpper = decide (c.val ≥ 'A'.val ∧ c.val ≤ 'Z'.val) := rfl
  have hlower : c.isLower = (decide (c.val ≥ 'a'.val) && decide (c.val ≤ 'z'.val)) := rfl
  have halpha : c.isAlpha = (c.isUpper || c.isLower) := rfl
  simp only [isNameStart, halpha, hupper, hlower, Letter, Char.le_def, Bool.or_eq_true,
    Bool.and_eq_true, decide_eq_true_eq, ge_iff_le]
  tauto

theorem isNamePart_iff {c : Char} : isNamePart c = true ↔ Letter c ∨ Digit c := by
  rw [isNamePart, Bool.or_eq_true, isNameStart_iff, isDigit_iff]

/-- An operator in the table is read by its first character. -/
theorem operator_cases {op : String} {kind : TokenKind} (h : (op, kind) ∈ operators) :
    (∃ c long, op.toList = [c] ∧ operator? c = some (kind, long)) ∨
      ∃ c short, op.toList = [c, '='] ∧ operator? c = some (short, some kind) := by
  simp only [operators, List.mem_cons, Prod.mk.injEq, List.not_mem_nil, or_false] at h
  rcases h with ⟨rfl, rfl⟩ | ⟨rfl, rfl⟩ | ⟨rfl, rfl⟩ | ⟨rfl, rfl⟩ | ⟨rfl, rfl⟩ | ⟨rfl,
    rfl⟩ | ⟨rfl, rfl⟩ | ⟨rfl, rfl⟩ | ⟨rfl, rfl⟩ | ⟨rfl, rfl⟩ | ⟨rfl, rfl⟩ | ⟨rfl, rfl⟩ | ⟨rfl,
    rfl⟩ | ⟨rfl, rfl⟩ | ⟨rfl, rfl⟩ | ⟨rfl, rfl⟩ | ⟨rfl, rfl⟩ | ⟨rfl, rfl⟩ | ⟨rfl, rfl⟩ <;>
    first | exact .inl ⟨_, _, rfl, rfl⟩ | exact .inr ⟨_, _, rfl, rfl⟩

/-- What is read by a first character is in the table of operators. -/
theorem mem_operators {c : Char} {short : TokenKind} {long : Option TokenKind}
    (h : operator? c = some (short, long)) :
    (String.ofList [c], short) ∈ operators ∧ ∀ k, long = some k →
    (String.ofList [c, '='], k) ∈ operators := by
  unfold operator? at h
  split at h <;> cases h <;> exact ⟨by decide, by decide⟩

/-- A keyword is a word of letters, and has its own kind. -/
theorem keyword_cases {word : String} {kind : TokenKind} (h : (word, kind) ∈ keywords) :
    TokenKind.ofWord word = kind ∧ ∃ c v, word.toList = c :: v ∧ Letter c ∧ ∀ d ∈ v, Letter d := by
  simp only [keywords, List.mem_cons, Prod.mk.injEq, List.not_mem_nil, or_false] at h
  rcases h with ⟨rfl, rfl⟩ | ⟨rfl, rfl⟩ | ⟨rfl, rfl⟩ | ⟨rfl, rfl⟩ | ⟨rfl, rfl⟩ | ⟨rfl,
    rfl⟩ | ⟨rfl, rfl⟩ | ⟨rfl, rfl⟩ | ⟨rfl, rfl⟩ | ⟨rfl, rfl⟩ | ⟨rfl, rfl⟩ | ⟨rfl, rfl⟩ | ⟨rfl,
    rfl⟩ | ⟨rfl, rfl⟩ <;> exact ⟨by decide, _, _, rfl, by
    decide, List.all_iff_forall_prop.mp (by decide)⟩

/-- A word that is no keyword is a name. -/
theorem ofWord_of_not_mem {word : String} (h : ∀ kind, (word, kind) ∉ keywords) :
    TokenKind.ofWord word = .identifier := by
  rw [TokenKind.ofWord]
  cases hk : keywords.lookup word with
  | none => rfl
  | some kind =>
    obtain ⟨before, after, heq, -⟩ := List.lookup_eq_some_iff.mp hk
    exact absurd (heq ▸ by simp) (h kind)

/-- The visible characters of ASCII are no white space. -/
theorem isBlank_of_visible {c : Char} (h : 33 ≤ c.toNat ∧ c.toNat ≤ 126) :
    Text.isBlank c = false := by
  simp only [Text.isBlank, Text.blankRanges, List.any_cons, List.any_nil, Bool.or_false,
    Bool.or_eq_false_iff, Bool.and_eq_false_iff, decide_eq_false_iff_not]
  omega

/-- No class of first characters has anything in common with another one, or with what separates. -/
theorem operator_class {c : Char} {kinds : TokenKind × Option TokenKind}
    (h : operator? c = some kinds) :
    ¬ Digit c ∧ ¬ Letter c ∧ c ≠ '"' ∧ c ≠ '#' ∧ Text.isBlank c = false := by
  unfold operator? at h
  split at h <;> cases h <;> decide

/-- A digit starts nothing but a number. -/
theorem digit_class {c : Char} (h : Digit c) : ¬ Letter c ∧ c ≠ '"' ∧ c ≠ '#' ∧
    Text.isBlank c = false := by
  have hrange : 48 ≤ c.toNat ∧ c.toNat ≤ 57 := h
  refine ⟨fun hletter => ?_, ?_, ?_, isBlank_of_visible (by omega)⟩
  · have hranges : (97 ≤ c.toNat ∧ c.toNat ≤ 122) ∨ (65 ≤ c.toNat ∧ c.toNat ≤ 90) ∨
      c = '_' := hletter
    rcases hranges with hlower | hupper | rfl
    · omega
    · omega
    · revert hrange
      decide
  · rintro rfl
    revert hrange
    decide
  · rintro rfl
    revert hrange
    decide

/-- A letter starts nothing but a word. -/
theorem letter_class {c : Char} (h : Letter c) : c ≠ '"' ∧ c ≠ '#' ∧ Text.isBlank c = false := by
  have hranges : (97 ≤ c.toNat ∧ c.toNat ≤ 122) ∨ (65 ≤ c.toNat ∧ c.toNat ≤ 90) ∨ c = '_' := h
  refine ⟨?_, ?_, ?_⟩
  · rintro rfl
    revert hranges
    decide
  · rintro rfl
    revert hranges
    decide
  · rcases hranges with hlower | hupper | rfl
    · exact isBlank_of_visible (by omega)
    · exact isBlank_of_visible (by omega)
    · decide

/-- The longest run of characters with a property. -/
theorem length_le_span {p : Char → Bool} {v cs : List Char} (hv : ∀ c ∈ v, p c = true)
    (h : v <+: cs) :
    v.length ≤ (cs.span p).1.length := by
  obtain ⟨more, rfl⟩ := h
  rw [List.span_eq_takeWhile_dropWhile, List.takeWhile_append_of_pos hv]
  simp

/-- A run of characters with a property, up to one that does not have it. -/
theorem span_eq_of_prefix {p : Char → Bool} {v w cs : List Char} {c : Char}
    (hv : ∀ d ∈ v, p d = true) (hc : p c = false) (h : v ++ c :: w <+: cs) :
    ∃ more, cs.span p = (v, c :: w ++ more) := by
  obtain ⟨more, rfl⟩ := h
  refine ⟨more, ?_⟩
  rw [List.span_eq_takeWhile_dropWhile, List.append_assoc, List.takeWhile_append_of_pos hv,
    List.dropWhile_append_of_pos hv]
  simp [hc]

theorem span_append_eq {p : Char → Bool} (cs : List Char) :
    (cs.span p).1 ++ (cs.span p).2 = cs := by
  rw [List.span_eq_takeWhile_dropWhile]
  exact List.takeWhile_append_dropWhile

/-- The first character behind the split has the property no more. -/
theorem head_span {p : Char → Bool} {cs : List Char} {c : Char}
    (h : ((cs.span p).2).head? = some c) : p c = false := by
  rw [List.span_eq_takeWhile_dropWhile] at h
  have hnot := List.head?_dropWhile_not p cs
  rw [h] at hnot
  simpa using hnot

theorem of_mem_span {p : Char → Bool} {cs : List Char} {c : Char} (h : c ∈ (cs.span p).1) :
    p c = true := by
  rw [List.span_eq_takeWhile_dropWhile] at h
  exact List.mem_takeWhile_imp h

end Scanner

open Scanner Cursor

namespace Form

variable {c : Char} {v : List Char} {kind : TokenKind}

/-! ## First characters -/

/-- No class of characters has anything in common with another one. -/
theorem classes (h : Form (c :: v) kind) :
    Digit c ∧ kind = .number ∧ ((∀ d ∈ c :: v, Digit d) ∨ ∃ ds e es, c :: v = ds ++ '.' :: e :: es ∧
        (∀ d ∈ ds, Digit d) ∧ ∀ d ∈ e :: es, Digit d) ∨
      Letter c ∧ (∀ d ∈ v, Letter d ∨ Digit d) ∧ kind = .ofWord (String.ofList (c :: v)) ∨
      c = '"' ∧ kind = .string ∧ (∃ cs, v = cs ++ ['"'] ∧ '"' ∉ cs) ∨
      ∃ short long, operator? c = some (short, long) ∧
        (v = [] ∧ kind = short ∨ v = ['='] ∧ long = some kind) := by
  generalize hu : c :: v = u at h
  cases h with
  | whole hne hds =>
    subst hu
    exact .inl ⟨hds c List.mem_cons_self, rfl, .inl hds⟩
  | @decimal ds es hne hds hne' hes =>
    obtain ⟨d, ds, rfl⟩ := List.exists_cons_of_ne_nil hne
    obtain ⟨e, es, rfl⟩ := List.exists_cons_of_ne_nil hne'
    obtain ⟨rfl, -⟩ := List.cons.inj hu
    exact .inl ⟨hds c List.mem_cons_self, rfl, .inr ⟨c :: ds, e, es, rfl, hds, hes⟩⟩
  | @string cs hcs =>
    obtain ⟨rfl, rfl⟩ := List.cons.inj hu
    exact .inr (.inr (.inl ⟨rfl, rfl, cs, rfl, hcs⟩))
  | operator hop =>
    rcases operator_cases hop with ⟨d, long, hd, hread⟩ | ⟨d, short, hd, hread⟩
    · obtain ⟨rfl, rfl⟩ := List.cons.inj (hu.trans hd)
      exact .inr (.inr (.inr ⟨_, _, hread, .inl ⟨rfl, rfl⟩⟩))
    · obtain ⟨rfl, rfl⟩ := List.cons.inj (hu.trans hd)
      exact .inr (.inr (.inr ⟨_, _, hread, .inr ⟨rfl, rfl⟩⟩))
  | @keyword word kind hword =>
    obtain ⟨hkind, d, w, hd, hletter, hletters⟩ := keyword_cases hword
    obtain ⟨rfl, rfl⟩ := List.cons.inj (hu.trans hd)
    refine .inr (.inl ⟨hletter, fun d hd => .inl (hletters d hd), ?_⟩)
    rw [String.ofList_toList, hkind]
  | name hc hcs hnone =>
    obtain ⟨rfl, rfl⟩ := List.cons.inj hu
    exact .inr (.inl ⟨hc, hcs, (ofWord_of_not_mem hnone).symm⟩)

/-- Whatever begins a form separates nothing. -/
theorem begins (h : Form (c :: v) kind) : c ≠ '#' ∧ Text.isBlank c = false := by
  rcases h.classes with ⟨hc, -⟩ | ⟨hc, -⟩ | ⟨rfl, -⟩ | ⟨short, long, hc, -⟩
  · exact (digit_class hc).2.2
  · exact (letter_class hc).2
  · decide
  · exact (operator_class hc).2.2.2

/-- A form that starts with an operator is this operator, or the longer one. -/
theorem of_operator {short : TokenKind} {long : Option TokenKind} (h : Form (c :: v) kind)
    (hop : operator? c = some (short, long)) : v = [] ∧ kind = short ∨ v = ['='] ∧
    long = some kind := by
  obtain ⟨hdigit, hletter, hquote, -⟩ := operator_class hop
  rcases h.classes with ⟨hc, -⟩ | ⟨hc, -⟩ | ⟨hc, -⟩ | ⟨short', long', hc, hv⟩
  · exact absurd hc hdigit
  · exact absurd hc hletter
  · exact absurd hc hquote
  · obtain ⟨rfl, rfl⟩ := Prod.mk.inj (Option.some.inj (hop.symm.trans hc))
    exact hv

/-- A form that starts with a quotation mark is a string, which ends with the next one. -/
theorem of_quote (h : Form ('"' :: v) kind) : kind = .string ∧ ∃ cs, v = cs ++ ['"'] ∧
    '"' ∉ cs := by
  rcases h.classes with ⟨hc, -⟩ | ⟨hc, -⟩ | ⟨-, hkind, hv⟩ | ⟨short, long, hc, -⟩
  · exact absurd rfl (digit_class hc).2.1
  · exact absurd rfl (letter_class hc).1
  · exact ⟨hkind, hv⟩
  · cases hc

/-- A form that starts with a digit is a number. -/
theorem of_digit (h : Form (c :: v) kind) (hdigit : Digit c) :
    kind = .number ∧ ((∀ d ∈ c :: v, Digit d) ∨ ∃ ds e es, c :: v = ds ++ '.' :: e :: es ∧
      (∀ d ∈ ds, Digit d) ∧ ∀ d ∈ e :: es, Digit d) := by
  rcases h.classes with ⟨-, hkind, hv⟩ | ⟨hc, -⟩ | ⟨hc, -⟩ | ⟨short, long, hc, -⟩
  · exact ⟨hkind, hv⟩
  · exact absurd hc (digit_class hdigit).1
  · exact absurd hc (digit_class hdigit).2.1
  · exact absurd hdigit (operator_class hc).1

/-- A form that starts with a letter is a word. -/
theorem of_letter (h : Form (c :: v) kind) (hletter : Letter c) :
    (∀ d ∈ v, Letter d ∨ Digit d) ∧ kind = .ofWord (String.ofList (c :: v)) := by
  rcases h.classes with ⟨hc, -⟩ | ⟨-, hv⟩ | ⟨hc, -⟩ | ⟨short, long, hc, -⟩
  · exact absurd hletter (digit_class hc).1
  · exact hv
  · exact absurd hc (letter_class hletter).1
  · exact absurd hletter (operator_class hc).2.1

/-- No form is empty. -/
theorem ne_nil {u : List Char} (h : Form u kind) : u ≠ [] := by
  cases h with
  | whole hne _ => exact hne
  | decimal _ _ _ _ => simp
  | string _ => simp
  | operator hop =>
    rcases operator_cases hop with ⟨_, _, hd, -⟩ | ⟨_, _, hd, -⟩ <;> simp [hd]
  | keyword hword =>
    obtain ⟨-, _, _, hd, -⟩ := keyword_cases hword
    simp [hd]
  | name _ _ _ => simp

theorem kind_ne_eof {u : List Char} (h : Form u kind) : kind ≠ .eof := by
  obtain ⟨c, v, rfl⟩ := List.exists_cons_of_ne_nil h.ne_nil
  rcases h.classes with ⟨-, rfl, -⟩ | ⟨-, -, rfl⟩ | ⟨-, rfl, -⟩ | ⟨short, long, hc, hv⟩
  · decide
  · exact ofWord_ne_eof _
  · decide
  · obtain ⟨⟨hshort, -⟩, hlong⟩ := operator_kinds hc
    rcases hv with ⟨-, rfl⟩ | ⟨-, hk⟩
    · exact hshort
    · exact (hlong _ hk).1

/-- A text has at most one kind. -/
theorem kind_eq {u : List Char} {kind' : TokenKind} (h : Form u kind) (h' : Form u kind') :
    kind = kind' := by
  obtain ⟨c, v, rfl⟩ := List.exists_cons_of_ne_nil h.ne_nil
  rcases h.classes with ⟨hc, rfl, -⟩ | ⟨hc, -, rfl⟩ | ⟨rfl, rfl, -⟩ | ⟨short, long, hc, hv⟩
  · exact (h'.of_digit hc).1.symm
  · exact (h'.of_letter hc).2.symm
  · exact h'.of_quote.1.symm
  · rcases hv with ⟨rfl, rfl⟩ | ⟨rfl, rfl⟩
    · rcases h'.of_operator hc with ⟨-, rfl⟩ | ⟨hnil, -⟩
      · rfl
      · cases hnil
    · rcases h'.of_operator hc with ⟨hnil, -⟩ | ⟨-, hlong⟩
      · cases hnil
      · exact Option.some.inj hlong

end Form

namespace Lexeme

variable {rest rest' u u' : List Char} {kind kind' : TokenKind} {text text' : String}

/-- Text begins with at most one lexeme. -/
theorem unique (h : Lexeme rest u kind text) (h' : Lexeme rest' u' kind' text')
    (heq : u ++ rest = u' ++ rest') :
    u = u' ∧ rest = rest' ∧ kind = kind' ∧ text = text' := by
  -- a string without an end begins with no form, nor does an unexpected character
  have hopen {cs v : List Char} {k : TokenKind} (hcs : '"' ∉ cs) (hv : Form v k) :
    ¬ v <+: '"' :: cs := by
    intro hbegins
    obtain ⟨c, w, rfl⟩ := List.exists_cons_of_ne_nil hv.ne_nil
    obtain ⟨rfl, hw⟩ := List.cons_prefix_cons.mp hbegins
    obtain ⟨-, ds, rfl, -⟩ := hv.of_quote
    exact hcs (hw.subset (by simp))
  cases h with
  | form hu hlongest =>
    cases h' with
    | form hu' hlongest' =>
      have hle := hlongest _ _ hu' (heq ▸ List.prefix_append _ _)
      have hge := hlongest' _ _ hu (heq ▸ List.prefix_append _ _)
      obtain ⟨rfl, rfl⟩ := List.append_inj heq (Nat.le_antisymm hge hle)
      exact ⟨rfl, rfl, hu.kind_eq hu', rfl⟩
    | unterminated hcs hnil =>
      rw [hnil, List.append_nil] at heq
      exact absurd (heq ▸ List.prefix_append _ _) (hopen hcs hu)
    | unexpected _ _ _ hnone =>
      have hbegins : u <+: [_] ++ rest' := heq ▸ List.prefix_append _ _
      exact absurd hbegins (hnone _ _ hu)
  | unterminated hcs hnil =>
    cases h' with
    | form hu' _ =>
      rw [hnil, List.append_nil] at heq
      exact absurd (heq ▸ List.prefix_append _ _) (hopen hcs hu')
    | unterminated _ hnil' =>
      rw [hnil, hnil', List.append_nil, List.append_nil] at heq
      exact ⟨heq, hnil.trans hnil'.symm, rfl, rfl⟩
    | unexpected hquote _ _ _ => exact absurd (List.cons.inj heq).1.symm hquote
  | unexpected hquote _ _ hnone =>
    cases h' with
    | form hu' _ =>
      have hbegins : u' <+: [_] ++ rest := heq.symm ▸ List.prefix_append _ _
      exact absurd hbegins (hnone _ _ hu')
    | unterminated _ _ => exact absurd (List.cons.inj heq).1 hquote
    | unexpected _ _ _ _ =>
      obtain ⟨rfl, hrest⟩ := List.cons.inj heq
      exact ⟨rfl, hrest, rfl, rfl⟩

theorem kind_ne_eof (h : Lexeme rest u kind text) : kind ≠ .eof := by
  cases h with
  | form hu _ => exact hu.kind_ne_eof
  | unterminated _ _ => decide
  | unexpected _ _ _ _ => decide

/-- A lexeme begins with a character that separates nothing. -/
theorem begins (h : Lexeme rest u kind text) :
    ∃ c v, u = c :: v ∧ c ≠ '#' ∧ Text.isBlank c = false := by
  cases h with
  | form hu _ =>
    obtain ⟨c, v, rfl⟩ := List.exists_cons_of_ne_nil hu.ne_nil
    exact ⟨c, v, rfl, hu.begins⟩
  | unterminated _ _ => exact ⟨_, _, rfl, by decide, by decide⟩
  | unexpected _ hmark hblank _ => exact ⟨_, _, rfl, hmark, hblank⟩

end Lexeme

namespace Scanner

/-! ## Reading a lexeme -/

/-- A token has been read from a text, and what is left of it. -/
def Reads (text : List Char) (line : Nat) (r : Token × Cursor) : Prop :=
  ∃ u, text = u ++ r.2.rest ∧ Lexeme r.2.rest u r.1.kind r.1.text ∧ r.1.line = line + u.count '\n' ∧
    r.2.line = r.1.line

variable {c : Char} {rest : List Char}

/-- A form that is read where it is the longest. -/
theorem reads_form {u : List Char} {kind : TokenKind} (hu : Form u kind)
    (hlongest : ∀ v k, Form v k → v <+: u ++ rest → v.length ≤ u.length) (hline : '\n' ∉ u)
    (line : Nat) :
    Reads (u ++ rest) line (⟨kind, String.ofList u, line⟩, ⟨rest, line⟩) :=
  ⟨u, rfl, .form hu hlongest, by rw [List.count_eq_zero_of_not_mem hline]; rfl, rfl⟩

/-- An operator is read as the longer one if an equals sign follows. -/
theorem reads_operator {short : TokenKind} {long : Option TokenKind}
    (h : operator? c = some (short, long)) (line : Nat) :
    Reads (c :: rest) line (takeToken c rest line) := by
  obtain ⟨hshort, hlong⟩ := mem_operators h
  have hbreak : c ≠ '\n' := by
    rintro rfl
    cases h
  -- the operator of one character, if no longer one is there
  have hone (halone : ∀ kind, long = some kind → ¬ ['='] <+: rest) :
      Reads (c :: rest) line (⟨short, String.ofList [c], line⟩, ⟨rest, line⟩) := by
    have hform := Form.operator hshort
    rw [String.toList_ofList] at hform
    refine reads_form hform (fun v k hv hbegins => ?_) (by simpa using hbreak.symm) line
    obtain ⟨d, w, rfl⟩ := List.exists_cons_of_ne_nil hv.ne_nil
    obtain ⟨rfl, hw⟩ := List.cons_prefix_cons.mp hbegins
    rcases hv.of_operator h with ⟨rfl, -⟩ | ⟨rfl, hk⟩
    · exact Nat.le_refl _
    · exact absurd hw (halone _ hk)
  rw [takeToken, h]
  cases long with
  | none =>
    refine hone fun _ hk => ?_
    cases hk
  | some long =>
    simp only
    split
    · next more =>
      have hform := Form.operator (hlong long rfl)
      rw [String.toList_ofList] at hform
      refine reads_form hform (fun v k hv hbegins => ?_) (by simpa using hbreak.symm) line
      obtain ⟨d, w, rfl⟩ := List.exists_cons_of_ne_nil hv.ne_nil
      obtain ⟨rfl, -⟩ := List.cons_prefix_cons.mp hbegins
      rcases hv.of_operator h with ⟨rfl, -⟩ | ⟨rfl, -⟩ <;> simp
    · next hne =>
      refine hone fun _ _ hbegins => ?_
      obtain ⟨more, rfl⟩ := hbegins
      exact hne more rfl

/-- A string with its closing quote, or without one. -/
theorem reads_string (rest : List Char) (line : Nat) :
    Reads ('"' :: rest) line (takeToken '"' rest line) := by
  have hspan := span_append_eq (p := (· != '"')) rest
  have hinside : '"' ∉ (rest.span (· != '"')).1 := fun hmem => by simpa using of_mem_span hmem
  have hafter {q : Char} (hq : ((rest.span (· != '"')).2).head? = some q) : q = '"' := by
    simpa using head_span hq
  -- any string that starts here ends with the first quotation mark
  have hlongest {cs : List Char} (hcs : '"' ∉ cs) (hbegins : cs ++ ['"'] <+: rest) :
    (rest.span (· != '"')).1 = cs := by
    have hall : ∀ d ∈ cs, (d != '"') = true := fun d hd => by
      have hne : d ≠ '"' := fun heq => hcs (heq ▸ hd)
      simpa using hne
    obtain ⟨more, hmore⟩ := span_eq_of_prefix hall (by decide) hbegins
    rw [hmore]
  have hnone : operator? '"' = none := rfl
  rw [takeToken, hnone]
  simp only [if_true]
  generalize rest.span (· != '"') = halves at hspan hinside hafter hlongest ⊢
  obtain ⟨inside, after⟩ := halves
  cases after with
  | nil =>
    obtain rfl : inside = rest := (List.append_nil inside).symm.trans hspan
    refine ⟨'"' :: inside, (List.append_nil _).symm, .unterminated hinside rfl, ?_, rfl⟩
    rw [List.count_cons_of_ne (by decide)]
  | cons quote more =>
    obtain rfl := hafter rfl
    obtain rfl : inside ++ '"' :: more = rest := hspan
    refine ⟨'"' :: inside ++ ['"'], by simp,
      .form (.string hinside) fun v k hv hbegins => ?_, ?_, rfl⟩
    · obtain ⟨c, w, rfl⟩ := List.exists_cons_of_ne_nil hv.ne_nil
      rw [List.cons_append, List.cons_append, List.append_assoc] at hbegins
      obtain ⟨rfl, hw⟩ := List.cons_prefix_cons.mp hbegins
      obtain ⟨-, cs, rfl, hcs⟩ := hv.of_quote
      obtain rfl := hlongest hcs hw
      simp
    · rw [List.cons_append, List.count_cons_of_ne (by decide), List.count_append]
      simp

/-- A number goes on behind a point only if a digit stands there. -/
theorem takeNumber_cases (cs : List Char) :
    (∃ d more, (cs.span Decimal.isDigit).2 = '.' :: d :: more ∧ Digit d ∧ takeNumber cs =
        ((cs.span Decimal.isDigit).1 ++ '.' :: ((d :: more).span Decimal.isDigit).1,
          ((d :: more).span Decimal.isDigit).2)) ∨
      (∀ d more, (cs.span Decimal.isDigit).2 = '.' :: d :: more → ¬ Digit d) ∧
        takeNumber cs = cs.span Decimal.isDigit := by
  rw [takeNumber]
  rcases cs.span Decimal.isDigit with ⟨whole, after⟩
  simp only
  split
  · next d more =>
    by_cases hd : Decimal.isDigit d = true
    · rw [if_pos hd]
      exact .inl ⟨d, more, rfl, isDigit_iff.mp hd, rfl⟩
    · rw [if_neg hd]
      refine .inr ⟨fun d' more' heq hd' => ?_, rfl⟩
      obtain ⟨rfl, -⟩ := List.cons.inj (List.cons.inj heq).2
      exact hd (isDigit_iff.mpr hd')
  · next hne => exact .inr ⟨fun d more heq => absurd heq (hne d more), rfl⟩

/-- A number is read as far as it goes; a point without digits behind it is left. -/
theorem reads_number (h : Digit c) (line : Nat) : Reads (c :: rest) line
    (⟨.number, String.ofList (takeNumber (c :: rest)).1, line⟩,
      ⟨(takeNumber (c :: rest)).2, line⟩) := by
  have hspan := span_append_eq (p := Decimal.isDigit) (c :: rest)
  have hwhole : ∀ d ∈ ((c :: rest).span Decimal.isDigit).1, Digit d :=
    fun d hd => isDigit_iff.mp (of_mem_span hd)
  have hne := span_fst_ne_nil (isDigit_iff.mpr h) rest
  -- a number is a row of digits, or has a point after the row of digits
  have hnumber {v : List Char} {k : TokenKind} (hv : Form v k) (hbegins : v <+: c :: rest) :
      v.length ≤ ((c :: rest).span Decimal.isDigit).1.length ∨
        ∃ e es more, v = ((c :: rest).span Decimal.isDigit).1 ++ '.' :: e :: es ∧
        (∀ d ∈ e :: es, Digit d) ∧
          ((c :: rest).span Decimal.isDigit).2 = '.' :: e :: es ++ more := by
    obtain ⟨d, w, rfl⟩ := List.exists_cons_of_ne_nil hv.ne_nil
    obtain ⟨rfl, -⟩ := List.cons_prefix_cons.mp hbegins
    rcases (hv.of_digit h).2 with hall | ⟨ds, e, es, heq, hds, hes⟩
    · exact .inl (length_le_span (fun x hx => isDigit_iff.mpr (hall x hx)) hbegins)
    · rw [heq] at hbegins
      obtain ⟨more, hmore⟩ := span_eq_of_prefix (fun x hx => isDigit_iff.mpr (hds x hx))
        (by decide) hbegins
      exact .inr ⟨e, es, more, by rw [heq, hmore], hes, by rw [hmore]⟩
  rcases takeNumber_cases (c :: rest) with ⟨d, more, hafter, hd, htake⟩ | ⟨hpoint, htake⟩
  · have hspan' := span_append_eq (p := Decimal.isDigit) (d :: more)
    have hplaces : ∀ x ∈ ((d :: more).span Decimal.isDigit).1, Digit x :=
      fun x hx => isDigit_iff.mp (of_mem_span hx)
    have htext : ((c :: rest).span Decimal.isDigit).1 ++ '.' ::
      ((d :: more).span Decimal.isDigit).1 ++
        ((d :: more).span Decimal.isDigit).2 = c :: rest := by
      rw [List.append_assoc, List.cons_append, hspan', ← hafter, hspan]
    rw [htake]
    have hreads := @reads_form ((d :: more).span Decimal.isDigit).2 _ _
      (.decimal hne hwhole (span_fst_ne_nil (isDigit_iff.mpr hd) more) hplaces) ?_ ?_ line
    · rwa [htext] at hreads
    · intro v k hv hbegins
      rw [htext] at hbegins
      rw [List.length_append, List.length_cons]
      rcases hnumber hv hbegins with hle | ⟨e, es, more', rfl, hes, hafter'⟩
      · omega
      · rw [hafter] at hafter'
        have hle : (e :: es).length ≤ ((d :: more).span Decimal.isDigit).1.length :=
          length_le_span (fun x hx => isDigit_iff.mpr (hes x hx))
            ⟨more', (List.cons.inj hafter').2.symm⟩
        rw [List.length_append, List.length_cons]
        omega
    · rw [List.mem_append, List.mem_cons]
      rintro (hmem | hpoint | hmem)
      · exact absurd (hwhole _ hmem) (by decide)
      · exact absurd hpoint (by decide)
      · exact absurd (hplaces _ hmem) (by decide)
  · rw [htake]
    have hreads := @reads_form ((c :: rest).span Decimal.isDigit).2 _ _
      (.whole hne hwhole) ?_ ?_ line
    · rwa [hspan] at hreads
    · intro v k hv hbegins
      rw [hspan] at hbegins
      rcases hnumber hv hbegins with hle | ⟨e, es, more', -, hes, hafter'⟩
      · exact hle
      · exact absurd (hes e List.mem_cons_self) (hpoint e (es ++ more') hafter')
    · intro hmem
      exact absurd (hwhole _ hmem) (by decide)

/-- Every word has a form. -/
theorem form_word {w : List Char} (hc : Letter c) (hw : ∀ d ∈ w, Letter d ∨ Digit d) :
    Form (c :: w) (.ofWord (String.ofList (c :: w))) := by
  by_cases h : ∃ kind, (String.ofList (c :: w), kind) ∈ keywords
  · obtain ⟨kind, hkind⟩ := h
    have hform := Form.keyword hkind
    rw [(keyword_cases hkind).1]
    rwa [String.toList_ofList] at hform
  · have hnone : ∀ kind, (String.ofList (c :: w), kind) ∉ keywords :=
      fun kind hkind => h ⟨kind, hkind⟩
    rw [ofWord_of_not_mem hnone]
    exact .name hc hw hnone

/-- A word is read as far as it goes, and may be a keyword. -/
theorem reads_word (h : Letter c) (line : Nat) : Reads (c :: rest) line
    (⟨.ofWord (String.ofList ((c :: rest).span isNamePart).1),
      String.ofList ((c :: rest).span isNamePart).1, line⟩,
      ⟨((c :: rest).span isNamePart).2, line⟩) := by
  have hspan := span_append_eq (p := isNamePart) (c :: rest)
  have hparts : ∀ d ∈ ((c :: rest).span isNamePart).1, Letter d ∨ Digit d := fun d hd =>
    isNamePart_iff.mp (of_mem_span hd)
  obtain ⟨w, hw⟩ : ∃ w, ((c :: rest).span isNamePart).1 = c :: w := by
    rw [List.span_eq_takeWhile_dropWhile, List.takeWhile_cons_of_pos (isNamePart_iff.mpr (.inl h))]
    exact ⟨_, rfl⟩
  rw [hw] at hspan hparts ⊢
  have hreads := @reads_form ((c :: rest).span isNamePart).2 _ _
    (form_word h fun d hd => hparts d (List.mem_cons_of_mem c hd)) ?_ ?_ line
  · rwa [hspan] at hreads
  · intro v k hv hbegins
    rw [hspan] at hbegins
    obtain ⟨d, w', rfl⟩ := List.exists_cons_of_ne_nil hv.ne_nil
    obtain ⟨rfl, -⟩ := List.cons_prefix_cons.mp hbegins
    rw [← hw]
    refine length_le_span (fun x hx => isNamePart_iff.mpr ?_) hbegins
    rcases List.mem_cons.mp hx with rfl | hx
    · exact .inl h
    · exact (hv.of_letter h).1 x hx
  · intro hmem
    exact absurd (hparts _ hmem) (by decide)

/-- Reading a token reads a lexeme. -/
theorem reads_takeToken (hmark : c ≠ '#') (hblank : Text.isBlank c = false) (line : Nat) :
    Reads (c :: rest) line (takeToken c rest line) := by
  cases hop : operator? c with
  | some kinds => exact reads_operator hop line
  | none =>
    by_cases hquote : c = '"'
    · subst hquote
      exact reads_string rest line
    · by_cases hdigit : Decimal.isDigit c = true
      · have htake : takeToken c rest line =
          (⟨.number, String.ofList (takeNumber (c :: rest)).1, line⟩,
            ⟨(takeNumber (c :: rest)).2, line⟩) := by
          simp only [takeToken, hop, if_neg hquote, if_pos hdigit]
        rw [htake]
        exact reads_number (isDigit_iff.mp hdigit) line
      · by_cases hletter : isNameStart c = true
        · have htake : takeToken c rest line =
            (⟨.ofWord (String.ofList ((c :: rest).span isNamePart).1),
              String.ofList ((c :: rest).span isNamePart).1, line⟩,
              ⟨((c :: rest).span isNamePart).2, line⟩) := by
            simp only [takeToken, hop, if_neg hquote, if_neg hdigit, if_pos hletter]
          rw [htake]
          exact reads_word (isNameStart_iff.mp hletter) line
        · have htake : takeToken c rest line =
              (⟨.error, "Unexpected character '" ++ String.ofList [c] ++ "'.", line⟩,
                ⟨rest, line⟩) := by
            simp only [takeToken, hop, if_neg hquote, if_neg hdigit, if_neg hletter]
          rw [htake]
          have hbreak : c ≠ '\n' := by
            rintro rfl
            cases hblank
          -- no lexeme begins with this character, or an earlier case would have read it
          refine ⟨[c], rfl, .unexpected hquote hmark hblank fun v k hv hbegins => ?_, ?_, rfl⟩
          · obtain ⟨d, w, rfl⟩ := List.exists_cons_of_ne_nil hv.ne_nil
            obtain ⟨rfl, -⟩ := List.cons_prefix_cons.mp hbegins
            rcases hv.classes with ⟨hc, -⟩ | ⟨hc, -⟩ | ⟨hc, -⟩ | ⟨short, long, hc, -⟩
            · exact hdigit (isDigit_iff.mpr hc)
            · exact hletter (isNameStart_iff.mpr hc)
            · exact hquote hc
            · rw [hop] at hc
              cases hc
          · rw [List.count_singleton, if_neg (by simpa using hbreak)]
            rfl

/-! ## Reading separators -/

/-- Text that does not begin with a separator. -/
def Solid (text : List Char) : Prop :=
  ∀ c, text.head? = some c → c ≠ '#' ∧ Text.isBlank c = false

theorem Solid.nil : Solid [] := nofun

/-- Before a lexeme there is nothing to skip. -/
theorem solid_of_lexeme {u rest : List Char} {kind : TokenKind} {text : String}
    (h : Lexeme rest u kind text) :
    Solid (u ++ rest) := by
  obtain ⟨c, v, rfl, hc⟩ := h.begins
  intro d hd
  obtain rfl := Option.some.inj hd
  exact hc

/-- Where there is nothing to skip nothing is skipped. -/
theorem skipBlank_solid {text : List Char} (h : Solid text) (line : Nat) :
    skipBlank false text line = ⟨text, line⟩ := by
  cases text with
  | nil => rfl
  | cons c text =>
    obtain ⟨hmark, hblank⟩ := h c rfl
    have hbreak : c ≠ '\n' := by
      rintro rfl
      cases hblank
    simp [skipBlank, hbreak, hblank, commentMark, hmark]

/-- The body of a comment is skipped. -/
theorem skipBlank_body {body : List Char} (h : '\n' ∉ body) (text : List Char) (line : Nat) :
    skipBlank true (body ++ text) line = skipBlank true text line := by
  induction body with
  | nil => rfl
  | cons c body ih =>
    rw [List.mem_cons, not_or] at h
    rw [List.cons_append, skipBlank, if_neg (Ne.symm h.1), Bool.true_or, if_pos rfl, ih h.2]

/-- A comment is over where a line ends. -/
theorem skipBlank_over {text : List Char} (h : ∀ c, text.head? = some c → c = '\n') (line : Nat) :
    skipBlank true text line = skipBlank false text line := by
  cases text with
  | nil => rfl
  | cons c text =>
    obtain rfl := h c rfl
    rfl

/-- Separators are skipped, and their lines are counted. -/
theorem skipBlank_separates {gap rest : List Char} (h : Separates rest gap) (hrest : Solid rest)
    (line : Nat) :
    skipBlank false (gap ++ rest) line = ⟨rest, line + gap.count '\n'⟩ := by
  induction h generalizing line with
  | nil => exact skipBlank_solid hrest line
  | @blank c gap hc _ ih =>
    rw [List.cons_append, skipBlank]
    by_cases hbreak : c = '\n'
    · rw [if_pos hbreak, ih, hbreak, List.count_cons_self, Nat.add_assoc, Nat.add_comm 1]
    · rw [if_neg hbreak, hc, Bool.or_true, if_pos rfl, ih, List.count_cons_of_ne hbreak]
  | @comment body gap hbody hend _ ih =>
    have hskip : skipBlank false ('#' :: body ++ gap ++ rest) line =
      skipBlank true (body ++ (gap ++ rest)) line := by
      rw [List.cons_append, List.cons_append, List.append_assoc]
      rfl
    rw [hskip, skipBlank_body hbody, skipBlank_over hend, ih, List.count_append,
      List.count_cons_of_ne (by decide),
      List.count_eq_zero_of_not_mem hbody, Nat.zero_add]

/-- Every text begins with separators, up to where it is solid. -/
theorem exists_separates (text : List Char) :
    ∃ gap rest, text = gap ++ rest ∧ Separates rest gap ∧ Solid rest := by
  induction hn : text.length using Nat.strong_induction_on generalizing text with
  | h n ih =>
    subst hn
    cases text with
    | nil => exact ⟨[], [], rfl, .nil, .nil⟩
    | cons c text =>
      by_cases hblank : Text.isBlank c = true
      · obtain ⟨gap, rest, rfl, hgap, hrest⟩ := ih _ (Nat.lt_succ_self _) text rfl
        exact ⟨c :: gap, rest, rfl, .blank hblank hgap, hrest⟩
      · by_cases hmark : c = '#'
        · have hspan := span_append_eq (p := (· != '\n')) text
          have hbody : '\n' ∉ (text.span (· != '\n')).1 :=
            fun hmem => by simpa using of_mem_span hmem
          have hend {d : Char} (hd : ((text.span (· != '\n')).2).head? = some d) : d = '\n' := by
            simpa using head_span hd
          generalize text.span (· != '\n') = halves at hspan hbody hend
          obtain ⟨body, after⟩ := halves
          simp only at hspan hbody hend
          subst hspan hmark
          have hlt : after.length < ('#' :: (body ++ after)).length := by
            simp only [List.length_cons, List.length_append]
            omega
          obtain ⟨gap, rest, rfl, hgap, hrest⟩ := ih _ hlt after rfl
          exact ⟨'#' :: body ++ gap, rest, by simp, .comment hbody (fun d => hend) hgap, hrest⟩
        · refine ⟨[], c :: text, rfl, .nil, fun d hd => ?_⟩
          obtain rfl := Option.some.inj hd
          exact ⟨hmark, by simpa using hblank⟩

end Scanner

namespace Cursor

variable {gap u rest : List Char} {kind : TokenKind} {text : String}

theorem next_last (h : Separates [] gap) (line : Nat) :
    Cursor.next ⟨gap, line⟩ = (.eof (line + gap.count '\n'), ⟨[], line + gap.count '\n'⟩) := by
  have hskip := skipBlank_separates h .nil line
  rw [List.append_nil] at hskip
  simp only [next, hskip]

/-- Behind what separates it the next lexeme is read. -/
theorem next_token (h : Separates (u ++ rest) gap) (hu : Lexeme rest u kind text) (line : Nat) :
    Cursor.next ⟨gap ++ u ++ rest, line⟩ =
      (⟨kind, text, line + (gap ++ u).count '\n'⟩, ⟨rest, line + (gap ++ u).count '\n'⟩) := by
  have hskip := skipBlank_separates h (solid_of_lexeme hu) line
  obtain ⟨c, v, rfl, hmark, hblank⟩ := hu.begins
  have hreads : Reads (c :: (v ++ rest)) _ _ := reads_takeToken hmark hblank (line + gap.count '\n')
  rw [← List.append_assoc] at hskip
  have hnext : Cursor.next ⟨gap ++ (c :: v) ++ rest, line⟩ =
    takeToken c (v ++ rest) (line + gap.count '\n') := by
    simp only [next, hskip, List.cons_append]
  rw [hnext]
  generalize takeToken c (v ++ rest) (line + gap.count '\n') = r at hreads
  obtain ⟨⟨kind', text', line'⟩, rest', line''⟩ := r
  obtain ⟨u', htext, hu', hline, hline'⟩ := hreads
  obtain ⟨rfl, rfl, rfl, rfl⟩ := hu.unique hu' htext
  simp only at hline hline'
  rw [hline', hline, List.count_append, Nat.add_assoc]

/-- Either only separators are left, or a lexeme comes after them. -/
theorem next_cases (text : List Char) :
    Separates [] text ∨ ∃ gap u rest kind word, text = gap ++ u ++ rest ∧
    Separates (u ++ rest) gap ∧
      Lexeme rest u kind word := by
  obtain ⟨gap, rest, rfl, hgap, hrest⟩ := exists_separates text
  cases rest with
  | nil => exact .inl (by rwa [List.append_nil])
  | cons c rest =>
    obtain ⟨hmark, hblank⟩ := hrest c rfl
    have hreads : Reads (c :: rest) 0 _ := reads_takeToken hmark hblank 0
    obtain ⟨u, hsplit, hu, -⟩ := hreads
    rw [hsplit] at hgap ⊢
    exact .inr ⟨gap, u, _, _, _, (List.append_assoc ..).symm, hgap, hu⟩

/-- At the end of a text the end token is read again and again, on the same line. -/
theorem take_last (n line : Nat) (read : List Token) :
    (take n ⟨[], line⟩ read).1 = read.reverse ++ List.replicate n (.eof line) := by
  induction n generalizing read with
  | zero => simp [take]
  | succ n ih =>
    have htake : take (n + 1) ⟨[], line⟩ read = take n ⟨[], line⟩ (.eof line :: read) := rfl
    rw [htake, ih, List.reverse_cons, List.append_assoc, List.replicate_succ, List.singleton_append]

end Cursor

namespace Made

variable {before text : List Char} {ts : List Token}

/-- What a text is made of is read from it. -/
theorem scans (h : Made before text ts) : Scans ⟨text, 1 + before.count '\n'⟩ ts := by
  induction h with
  | @last before gap hgap =>
    have hlast := Scans.last (c := ⟨gap, 1 + before.count '\n'⟩)
    rw [next_last hgap, Nat.add_assoc, ← List.count_append] at hlast
    exact hlast rfl
  | @token before gap u rest kind word ts hgap hu _ ih =>
    have hcons (hne : (Cursor.next ⟨gap ++ u ++ rest, 1 + before.count '\n'⟩).1.kind ≠ .eof)
        (hts : Scans (Cursor.next ⟨gap ++ u ++ rest, 1 + before.count '\n'⟩).2 ts) :=
        Scans.cons hne hts
    rw [next_token hgap hu, Nat.add_assoc, ← List.count_append, ← List.append_assoc] at hcons
    exact hcons hu.kind_ne_eof ih

end Made

/-- Every text is made of separators and lexemes. -/
theorem exists_made (before text : List Char) : ∃ ts, Made before text ts := by
  induction hn : text.length using Nat.strong_induction_on generalizing before text with
  | h n ih =>
    subst hn
    rcases next_cases text with hlast | ⟨gap, u, rest, kind, word, rfl, hgap, hu⟩
    · exact ⟨_, .last hlast⟩
    · obtain ⟨c, v, rfl, -⟩ := hu.begins
      have hlt : rest.length < (gap ++ (c :: v) ++ rest).length := by
        simp only [List.length_append, List.length_cons]
        omega
      obtain ⟨ts, hts⟩ := ih _ hlt (before ++ gap ++ (c :: v)) rest rfl
      exact ⟨_, .token hgap hu hts⟩

/-- A source has the tokens that it is made of. -/
theorem tokens_of_made {source : String} {ts : List Token} (h : Made [] source.toList ts) :
    tokens source = ts :=
  h.scans.drain (Nat.le_refl _) []

/-- The tokens of a source are the ones it is made of. -/
theorem made_tokens (source : String) : Made [] source.toList (tokens source) := by
  obtain ⟨ts, hts⟩ := exists_made [] source.toList
  rwa [tokens_of_made hts]

/-- The tokens of a source are those of the lexemes that it is made of, between separators, each on
the line on which its lexeme ends.  Wherever the next token is read, text is used up; or it is the
end token, which is then read any number of times. -/
theorem tokens_eq_iff_made :
    (∀ source ts, tokens source = ts ↔ Made [] source.toList ts) ∧
      ∀ c : Cursor, (c.next.1.kind ≠ .eof ∧ ∃ used, used ≠ [] ∧ c.rest = used ++ c.next.2.rest) ∨
        (c.next.1.kind = .eof ∧ ∀ n, (Cursor.take n c.next.2 []).1 =
          List.replicate n c.next.1) := by
  constructor
  · intro source ts
    constructor
    · rintro rfl
      exact made_tokens source
    · exact tokens_of_made
  · rintro ⟨text, line⟩
    rcases next_cases text with hlast | ⟨gap, u, rest, kind, word, rfl, hgap, hu⟩
    · rw [next_last hlast]
      exact .inr ⟨rfl, fun n => take_last n _ []⟩
    · rw [next_token hgap hu]
      obtain ⟨c, v, rfl, -⟩ := hu.begins
      exact .inl ⟨hu.kind_ne_eof, gap ++ (c :: v), by simp, rfl⟩

end EntityScript
