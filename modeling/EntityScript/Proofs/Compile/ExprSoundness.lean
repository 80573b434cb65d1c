/-
# Reading expressions is sound

An expression that is read without an error is spelled by the tokens that were taken, at the level
that was asked for, and the tree that was built is the one the static rules give.

The argument follows the reading.  An operand has a level of its own.  Each suffix that is taken
makes an expression of the suffix's level, and nothing that binds more strongly can follow: the
second operand has taken it already.  So at every turn of the loop the expression so far can stand
on the left of what comes next (`bindsUpto`), and at the end it can stand where `least` was asked
for.
-/
import EntityScript.Proofs.Compile.Errors
import EntityScript.Proofs.Script.Grammar

namespace EntityScript

/-! ## Levels -/

namespace Precedence

theorem rank_injective {a b : Precedence} (h : a.rank = b.rank) : a = b := by
  cases a <;> cases b <;> simp [rank] at h ⊢

theorem rank_next {a : Precedence} (h : a.rank < Precedence.primary.rank) :
    a.next.rank = a.rank + 1 := by
  cases a <;> simp [rank, next] at h ⊢

end Precedence

/-- What binds more strongly than asked for can stand there. -/
theorem Derives.weaken {ts : List Token} {level least : Precedence} {e : Term}
    (h : Derives ts (.expr level e)) (hl : least.rank ≤ level.rank) :
    Derives ts (.expr least e) := by
  induction hd : level.rank - least.rank generalizing least with
  | zero =>
    have he : least = level := Precedence.rank_injective (by omega)
    rw [he]
    exact h
  | succ d ih =>
    have hp : level.rank ≤ Precedence.primary.rank := by cases level <;> simp [Precedence.rank]
    have hn := Precedence.rank_next (a := least) (by omega)
    exact .stronger (ih (by omega) (by omega))

namespace TokenKind

/-- A token of this kind continues no expression that binds at least as strongly as `least`. -/
def BindsBelow (least : Precedence) (k : TokenKind) : Prop :=
  ∀ s, k.suffix? = some s → s.strength.rank < least.rank

/-- If a token of this kind continues an expression, one of this level can stand before it. -/
def BindsUpto (level : Precedence) (k : TokenKind) : Prop :=
  ∀ s, k.suffix? = some s → s.strength.rank ≤ level.rank

/-- Calls and members bind as strongly as anything. -/
theorem bindsUpto_call (k : TokenKind) : k.BindsUpto .call := by
  intro s hs
  cases k <;> simp [suffix?] at hs <;> subst hs <;> simp [Suffix.strength, Precedence.rank]

/-- What binds no stronger than a level binds no stronger than levels above it. -/
theorem BindsUpto.mono {a b : Precedence} {k : TokenKind} (h : k.BindsUpto a)
    (hab : a.rank ≤ b.rank) : k.BindsUpto b :=
  fun s hs => Nat.le_trans (h s hs) hab

/-- Between a level and the next one there is no other. -/
theorem BindsBelow.upto {level : Precedence} {k : TokenKind} (h : k.BindsBelow level.next)
    (hl : level.rank < Precedence.primary.rank) : k.BindsUpto level := by
  intro s hs
  have := h s hs
  rw [Precedence.rank_next hl] at this
  omega

end TokenKind

/-- The table of operators is that of the grammar. -/
theorem BinaryAt.iff_suffix {level : Precedence} {k : TokenKind} {op : BinaryOp} :
    BinaryAt level k op ↔ k.suffix? = some (.operator op level) := by
  constructor
  · intro h
    cases h <;> rfl
  · intro h
    cases k <;> simp [TokenKind.suffix?] at h <;> obtain ⟨rfl, rfl⟩ := h <;> constructor

/-- The levels of operators lie between the assignments and the signs. -/
theorem BinaryAt.rank_lt {level : Precedence} {k : TokenKind} {op : BinaryOp}
    (h : BinaryAt level k op) : level.rank < Precedence.unary.rank := by
  cases h <;> simp [Precedence.rank]

namespace ParseState

/-- A state from which reading can go on. -/
structure Ready (p : ParseState) : Prop where
  sane : p.Sane
  orderly : Orderly p.stream

theorem Ready.take {p q : ParseState} (h : Ready p) (hk : Keeps p q) (ht : Takes p q)
    (hc : p.current.kind ≠ .eof) : Ready q :=
  ⟨hk.sane h.sane, ht.orderly h.orderly hc⟩

/-- Where other tokens have been taken, reading can go on as well. -/
theorem Ready.skip {p q : ParseState} {ts : List Token} (h : Ready p) (hk : Keeps p q)
    (hs : p.stream = ts ++ q.stream) : Ready q := by
  refine ⟨hk.sane h.sane, ?_⟩
  have ho := h.orderly
  rw [hs] at ho
  exact ho.of_append (by simp [stream])

/-- Shifting remembers the token that was current. -/
theorem previous_shift (ts : List Token) (p : ParseState) : (shift ts p).previous = p.current := by
  induction ts generalizing p with
  | nil => rfl
  | cons t rest ih =>
    rw [shift]
    split
    · rw [ih]
      unfold complainAt
      split <;> rfl
    · rfl

theorem previous_advance (p : ParseState) : p.advance.previous = p.current :=
  previous_shift p.rest p

/-! ## What is read -/

/-- Between two states an expression has been read.  With the tokens `before`, which had been taken
earlier, its tokens spell `e` at a level; from the context `c`, its resolved tree is `t`. -/
structure Reads (before : List Token) (c : Context) (head : Bool) (p q : ParseState)
    (level : Precedence) (e : Term) (t : Expr) : Prop where
  spelled : ∃ ts, p.stream = ts ++ q.stream ∧ Derives (before ++ ts) (.expr level e)
  resolved : e.elaborate head c = some (t, q.context)
  line : q.line = e.lastLine

/-- What was read on a level was read on the weaker ones. -/
theorem Reads.weaken {before : List Token} {c : Context} {head : Bool} {p q : ParseState}
    {level least : Precedence} {e : Term} {t : Expr} (h : Reads before c head p q level e t)
    (hl : least.rank ≤ level.rank) : Reads before c head p q least e t := by
  obtain ⟨⟨ts, hts, hd⟩, hr, hline⟩ := h
  exact ⟨⟨ts, hts, hd.weaken hl⟩, hr, hline⟩

/-- Between two states a list of arguments has been read. -/
structure ReadsAll (p q : ParseState) (es : List Term) (ts : List Expr) : Prop where
  spelled : ∃ us, p.stream = us ++ q.stream ∧ Derives us (.arguments es)
  resolved : Term.elaborateAll es p.context = some (ts, q.context)

/-- The budget `n` suffices to read every part of an expression, and what is read without an error
is what the grammar and the static rules say.  The bounds count four calls for each token that is
left. -/
structure ExprSound (n : Nat) : Prop where
  expr : ∀ {least : Precedence} {p q : ParseState} {t : Expr}, Ready p →
    least.rank ≤ Precedence.unary.rank → 4 * p.stream.length + 1 ≤ n →
    readExpr n least p = (t, q) → q.diagnostics = [] →
    ∃ e, Reads [] p.context (least.rank ≤ Precedence.assignment.rank) p q least e t ∧
      q.current.kind.BindsBelow least
  operand : ∀ {assignable : Bool} {p q : ParseState} {o : Option Expr}, Ready p →
    (p.previous.kind = .identifier → p.previous.text ≠ "") → 4 * p.stream.length + 3 ≤ n →
    readOperand n assignable p = (o, q) → q.diagnostics = [] → ∀ t, o = some t →
    ∃ level e, Reads [p.previous] p.context assignable p q level e t ∧
      q.current.kind.BindsUpto level ∧
      (assignable = false → Precedence.unary.rank ≤ level.rank) ∧
      (assignable = true → e.isName = true → q.current.kind ≠ .dot)
  name : ∀ {assignable : Bool} {p q : ParseState} {t : Expr}, Ready p →
    p.previous.kind = .identifier → p.previous.text ≠ "" → 4 * p.stream.length + 2 ≤ n →
    readName n assignable p = (t, q) → q.diagnostics = [] →
    ∃ level e, Reads [p.previous] p.context assignable p q level e t ∧
      q.current.kind.BindsUpto level ∧
      (assignable = false → Precedence.unary.rank ≤ level.rank) ∧
      (assignable = true → e.isName = true → q.current.kind ≠ .dot)
  suffixes : ∀ {before : List Token} {c : Context} {head : Bool} {p₀ p q : ParseState}
    {level least : Precedence} {e₀ : Term} {t₀ t : Expr}, Ready p →
    least.rank ≤ level.rank → Reads before c head p₀ p level e₀ t₀ →
    p.current.kind.BindsUpto level →
    (head = true → e₀.isName = true → p.current.kind ≠ .dot) → 4 * p.stream.length + 1 ≤ n →
    readSuffixes n least t₀ p = (t, q) → q.diagnostics = [] →
    ∃ e, Reads before c head p₀ q least e t ∧ q.current.kind.BindsBelow least
  suffix : ∀ {before : List Token} {c : Context} {head : Bool} {p₀ p p' q : ParseState}
    {s : Suffix} {e₀ : Term} {t₀ t : Expr}, Ready p → Takes p₀ p →
    p₀.current.kind.suffix? = some s → Reads before c head p' p₀ s.strength e₀ t₀ →
    (head = true → e₀.isName = true → p₀.current.kind ≠ .dot) → 4 * p.stream.length + 3 ≤ n →
    readSuffix n s t₀ p = (t, q) → q.diagnostics = [] →
    ∃ e, Reads before c head p' q s.strength e t ∧ q.current.kind.BindsUpto s.strength ∧
      e.isName = false ∧ ∃ us, p.stream = us ++ q.stream
  arguments : ∀ {read : List Expr} {p q : ParseState} {ts : List Expr}, Ready p →
    4 * p.stream.length + 2 ≤ n → readArguments n read p = (ts, q) → q.diagnostics = [] →
    read.length ≤ maxArguments →
    ∃ es us, ReadsAll p q es us ∧ ts = read.reverse ++ us ∧
      read.length + es.length ≤ maxArguments

/-- No operand begins at the end of a source. -/
theorem readOperand_eof (n : Nat) (assignable : Bool) {p : ParseState}
    (h : p.previous.kind = .eof) :
    readOperand (n + 1) assignable p = (none, p) := by
  rw [readOperand, h]

namespace ExprSound

variable {n : Nat}

/-- An expression that was read without an error is an operand with its suffixes, and no suffix that
binds as strongly follows. -/
theorem succ_expr (ih : ExprSound n) {least : Precedence} {p q : ParseState} {t : Expr}
    (hp : Ready p) (hl : least.rank ≤ Precedence.unary.rank)
    (hn : 4 * p.stream.length + 1 ≤ n + 1) (h : readExpr (n + 1) least p = (t, q))
    (hc : q.diagnostics = []) :
    ∃ e, Reads [] p.context (least.rank ≤ Precedence.assignment.rank) p q least e t ∧
      q.current.kind.BindsBelow least := by
  have hko : Keeps p.advance (readOperand n (least.rank ≤ Precedence.assignment.rank)
    p.advance).2 :=
    (exprKeeps n).operand _ _
  rw [readExpr] at h
  simp only at h
  split at h
  · next r hr =>
    -- no operand begins here
    obtain ⟨-, rfl⟩ := Prod.mk.inj h
    rw [hr] at hko
    exact absurd hc (complain_failed (hko.sane ((keeps_advance p).sane hp.sane)) _)
  · next t₁ r hr =>
    rw [hr] at hko
    have hks : Keeps r (readSuffixes n least t₁ r).2 := (exprKeeps n).suffixes _ _ _
    rcases hx : readSuffixes n least t₁ r with ⟨t₂, r₂⟩
    rw [hx] at h hks
    have hs₂ : r₂.Sane := hks.sane (hko.sane ((keeps_advance p).sane hp.sane))
    simp only at h
    split at h
    · -- an assignment to something that is no variable
      obtain ⟨-, rfl⟩ := Prod.mk.inj h
      exact absurd hc (complain_failed ((keeps_advance r₂).sane hs₂) _)
    · obtain ⟨rfl, rfl⟩ := Prod.mk.inj h
      have hcr : r.diagnostics = [] := hks.clean hc
      have heof : p.current.kind ≠ .eof := by
        intro he
        obtain ⟨m, rfl⟩ : ∃ m, n = m + 1 := ⟨n - 1, by simp [stream] at hn; omega⟩
        rw [readOperand_eof m _ (by rw [previous_advance, he])] at hr
        simp at hr
      have ht := takes_advance hp.sane hp.orderly heof (hko.clean hcr)
      have ha : Ready p.advance := hp.take (keeps_advance p) ht heof
      have hlen : p.stream.length = p.advance.stream.length + 1 := by rw [ht.stream]; simp
      have hnamed : p.advance.previous.kind = .identifier → p.advance.previous.text ≠ "" := by
        rw [ht.previous]
        exact hp.orderly.named p.current (by simp [stream])
      obtain ⟨level, e₁, hread, hupto, hlevel, hdot⟩ :=
        ih.operand ha hnamed (by omega) hr hcr t₁ rfl
      have hread' : Reads [] p.context (least.rank ≤ Precedence.assignment.rank) p r
        level e₁ t₁ := by
        obtain ⟨⟨ts, hts, hd⟩, hres, hline⟩ := hread
        refine ⟨⟨p.current :: ts, ?_, ?_⟩, ?_, hline⟩
        · rw [ht.stream, hts, List.cons_append]
        · rw [ht.previous] at hd
          exact hd
        · rw [ht.context] at hres
          exact hres
      have hleast : least.rank ≤ level.rank := by
        by_cases ha : least.rank ≤ Precedence.assignment.rank
        · exact Nat.le_trans ha (Nat.zero_le _)
        · exact Nat.le_trans hl (hlevel (by simpa using ha))
      obtain ⟨ts, hts, -⟩ := hread'.spelled
      have hrr : Ready r := hp.skip ((keeps_advance p).trans hko) hts
      have hrl : r.stream.length ≤ p.advance.stream.length := by
        obtain ⟨us, hus, -⟩ := hread.spelled
        rw [hus]
        simp
      exact ih.suffixes hrr hleast hread' hupto (fun h => hdot (by simpa using h)) (by omega) hx hc

/-- A token that is an operand by itself has been read. -/
theorem reads_token {assignable : Bool} {p : ParseState} {e : Term} {t : Expr} {c : Context}
    (hd : Derives [p.previous] (.expr .primary e))
    (he : e.elaborate assignable p.context = some (t, c))
    (hline : p.line = e.lastLine) (hname : e.isName = false) :
    ∃ level e, Reads [p.previous] p.context assignable p (p.withContext c) level e t ∧
      p.current.kind.BindsUpto level ∧
      (assignable = false → Precedence.unary.rank ≤ level.rank) ∧
      (assignable = true → e.isName = true → p.current.kind ≠ .dot) := by
  refine ⟨.primary, e, ⟨⟨[], rfl, hd⟩, he, hline⟩, ?_, fun _ => by simp [Precedence.rank], ?_⟩
  · exact (TokenKind.bindsUpto_call _).mono (by simp [Precedence.rank])
  · intro _ hn
    rw [hname] at hn
    exact absurd hn (by simp)

/-- A sign and its operand have been read. -/
theorem succ_sign (ih : ExprSound n) {assignable : Bool} {p q : ParseState} {k : TokenKind}
    {op : UnaryOp} {t : Expr} (hp : Ready p) (hop : UnaryAt k op) (hk : p.previous.kind = k)
    (hn : 4 * p.stream.length + 1 ≤ n)
    (h : (match readExpr n .unary p with
      | (e, p) => (some (Expr.unary op e p.line), p)) = (some t, q))
    (hc : q.diagnostics = []) :
    ∃ level e, Reads [p.previous] p.context assignable p q level e t ∧
      q.current.kind.BindsUpto level ∧
      (assignable = false → Precedence.unary.rank ≤ level.rank) ∧
      (assignable = true → e.isName = true → q.current.kind ≠ .dot) := by
  rcases hx : readExpr n .unary p with ⟨t₁, r⟩
  rw [hx] at h
  obtain ⟨⟨⟩, rfl⟩ := Prod.mk.inj h
  obtain ⟨e, ⟨⟨ts, hts, hd⟩, hres, hline⟩, hbelow⟩ := ih.expr hp (Nat.le_refl _) hn hx hc
  refine ⟨.unary, .unary op e, ⟨⟨ts, hts, .unary (hk ▸ hop) hd⟩, ?_, hline⟩,
    fun s hs => Nat.le_of_lt (hbelow s hs), fun _ => Nat.le_refl _,
    fun _ hname => by simp [Term.isName] at hname⟩
  have hres' : e.elaborate false p.context = some (t₁, r.context) := by
    simpa [Precedence.rank] using hres
  simp [Term.elaborate, hres', hline]

/-- An operand is a literal, a name, an expression in parentheses or an operator with its operand.
-/
theorem succ_operand (ih : ExprSound n) {assignable : Bool} {p q : ParseState} {o : Option Expr}
    (hp : Ready p) (hnamed : p.previous.kind = .identifier → p.previous.text ≠ "")
    (hn : 4 * p.stream.length + 3 ≤ n + 1) (h : readOperand (n + 1) assignable p = (o, q))
    (hc : q.diagnostics = []) (t : Expr) (ho : o = some t) :
    ∃ level e, Reads [p.previous] p.context assignable p q level e t ∧
      q.current.kind.BindsUpto level ∧
      (assignable = false → Precedence.unary.rank ≤ level.rank) ∧
      (assignable = true → e.isName = true → q.current.kind ≠ .dot) := by
  subst ho
  rw [readOperand] at h
  split at h
  · next hk =>
    cases hx : p.context.number? p.previous.text p.line with
    | none =>
      -- a number without a value, or without room, would be an error
      have hf := readNumber_failed hp.sane hx
      obtain ⟨-, hq⟩ := Prod.mk.inj h
      rw [← hq] at hc
      exact absurd hc hf
    | some r =>
      obtain ⟨t', c⟩ := r
      rw [readNumber_eq hx] at h
      obtain ⟨⟨⟩, rfl⟩ := Prod.mk.inj h
      exact reads_token (.number hk) hx rfl rfl
  · next hk =>
    cases hx : p.context.addLiteral? (.string (unquote p.previous.text)) with
    | none =>
      have hf := addLiteral_failed hp.sane hx
      obtain ⟨-, hq⟩ := Prod.mk.inj h
      rw [← hq] at hc
      exact absurd hc hf
    | some r =>
      obtain ⟨i, c⟩ := r
      have hr : p.readString = (.string (unquote p.previous.text) i p.line, p.withContext c) := by
        unfold readString
        simp only [addLiteral_eq hx, line_withContext]
      rw [hr] at h
      obtain ⟨⟨⟩, rfl⟩ := Prod.mk.inj h
      exact reads_token (.string hk) (by simp [Term.elaborate, hx, line]) rfl rfl
  · next hk =>
    obtain ⟨⟨⟩, rfl⟩ := Prod.mk.inj h
    exact reads_token (.yes hk) rfl rfl rfl
  · next hk =>
    obtain ⟨⟨⟩, rfl⟩ := Prod.mk.inj h
    exact reads_token (.no hk) rfl rfl rfl
  · next hk =>
    obtain ⟨⟨⟩, rfl⟩ := Prod.mk.inj h
    exact reads_token (.nil hk) rfl rfl rfl
  · next hk =>
    rcases hx : readName n assignable p with ⟨t₁, r⟩
    rw [hx] at h
    obtain ⟨⟨⟩, rfl⟩ := Prod.mk.inj h
    exact ih.name hp hk (hnamed hk) (by omega) hx hc
  · next hk =>
    rcases hx : readExpr n .assignment p with ⟨t₁, r⟩
    rw [hx] at h
    obtain ⟨⟨⟩, rfl⟩ := Prod.mk.inj h
    have hkr : Keeps p r := (keeps_readExpr n .assignment p).result hx
    obtain ⟨e, ⟨⟨ts, hts, hd⟩, hres, hline⟩, -⟩ :=
      ih.expr hp (by simp [Precedence.rank]) (by omega) hx ((keeps_expect r _ _).clean hc)
    have hr : Ready r := hp.skip hkr hts
    -- the closing parenthesis was there
    obtain ⟨hrp, ht⟩ := takes_expect hr.sane hr.orderly (by simp) hc
    refine ⟨.primary, .group e r.current.line, ⟨⟨ts ++ [r.current], ?_, ?_⟩, ?_, ht.line⟩, ?_,
      fun _ => by simp [Precedence.rank], fun _ hname => by simp [Term.isName] at hname⟩
    · rw [hts, ht.stream, List.append_assoc, List.singleton_append]
    · exact .group hk hd hrp
    · rw [ht.context]
      simpa [Term.elaborate] using hres
    · exact (TokenKind.bindsUpto_call _).mono (by simp [Precedence.rank])
  · next hk => exact succ_sign ih hp (.negate) hk (by omega) h hc
  · next hk => exact succ_sign ih hp (.not) hk (by omega) h hc
  · simp at h

/-- After a name that has been resolved: an assignment to the variable. -/
theorem succ_assign (ih : ExprSound n) {p q r : ParseState} {t : Expr} {v : Variable} {c : Context}
    (hp : Ready p) (hk : p.previous.kind = .identifier)
    (hv : p.context.resolve? p.previous.text = some (v, c)) (hr : r = p.withContext c)
    (heq : r.current.kind = .equal) (hn : 4 * p.stream.length + 1 ≤ n)
    (h : (match readExpr n .assignment r.advance with
      | (value, p) => (Expr.set v value p.line, p)) = (t, q))
    (hc : q.diagnostics = []) :
    ∃ e, Reads [p.previous] p.context true p q .assignment e t ∧
      q.current.kind.BindsBelow .assignment ∧ e.isName = false := by
  have hkr : Keeps p r := hr ▸ keeps_withContext p c
  rcases hx : readExpr n .assignment r.advance with ⟨t₁, s⟩
  rw [hx] at h
  obtain ⟨rfl, rfl⟩ := Prod.mk.inj h
  have hks : Keeps r.advance s := (keeps_readExpr n .assignment r.advance).result hx
  have hrs : p.stream = [] ++ r.stream := by rw [hr]; rfl
  have hrr : Ready r := hp.skip hkr hrs
  have heof : r.current.kind ≠ .eof := by rw [heq]; simp
  have ht := takes_advance hrr.sane hrr.orderly heof (hks.clean hc)
  have ha : Ready r.advance := hrr.take (keeps_advance r) ht heof
  have hlen : p.stream.length = r.advance.stream.length + 1 := by
    have : p.stream = r.stream := by rw [hr]; rfl
    rw [this, ht.stream]
    simp
  obtain ⟨e, ⟨⟨ts, hts, hd⟩, hres, hline⟩, hbelow⟩ :=
    ih.expr ha (by simp [Precedence.rank]) (by omega) hx hc
  refine ⟨.assign p.previous.text e, ⟨⟨r.current :: ts, ?_, ?_⟩, ?_, hline⟩, hbelow, rfl⟩
  · have : p.stream = r.stream := by rw [hr]; rfl
    rw [this, ht.stream, hts, List.cons_append]
  · exact .assign hk heq hd
  · have hres' : e.elaborate true c = some (t₁, s.context) := by
      rw [ht.context, hr] at hres
      simpa [Precedence.rank] using hres
    simp [Term.elaborate, hv, hres', hline]

/-- A member of a variable was read, and then an equals sign and a value. -/
theorem succ_assignMember (ih : ExprSound n) {p s q : ParseState} {dot name : Token} {v : Variable}
    {m : Member} {c : Context} {t : Expr} (hk : p.previous.kind = .identifier)
    (hv : p.context.resolve? p.previous.text = some (v, c)) (hdot : dot.kind = .dot)
    (hid : name.kind = .identifier) (hname : Member.ofName? name.text = some m) (hs : Ready s)
    (hstream : p.stream = dot :: name :: s.stream) (hctx : s.context = c)
    (heq : s.current.kind = .equal) (hn : 4 * p.stream.length + 1 ≤ n)
    (h : readExpr n .assignment s.advance = (t, q)) (hc : q.diagnostics = []) :
    ∃ e, Reads [p.previous] p.context true p q .assignment
        (.assignMember p.previous.text name.text e) (.setMember v m t q.line) ∧
      q.current.kind.BindsUpto .assignment := by
  have hkq : Keeps s.advance q := (keeps_readExpr n .assignment s.advance).result h
  have heof : s.current.kind ≠ .eof := by rw [heq]; simp
  have ht := takes_advance hs.sane hs.orderly heof (hkq.clean hc)
  have ha : Ready s.advance := hs.take (keeps_advance s) ht heof
  have hlen : p.stream.length = s.advance.stream.length + 3 := by
    rw [hstream, ht.stream]
    simp
  obtain ⟨e, ⟨⟨us, hus, hd⟩, hres, hline⟩, hbelow⟩ :=
    ih.expr ha (by simp [Precedence.rank]) (by omega) h hc
  refine ⟨e, ⟨⟨dot :: name :: s.current :: us, ?_, ?_⟩, ?_, hline⟩,
    fun s hs => Nat.le_of_lt (hbelow s hs)⟩
  · rw [hstream, ht.stream, hus]
    simp
  · exact .assignMember hk hdot hid heq hd
  · have hres' : e.elaborate true c = some (t, q.context) := by
      rw [ht.context, hctx] at hres
      simpa [Precedence.rank] using hres
    simp [Term.elaborate, hv, hname, hres', hline]

/-- After a name that has been resolved and a dot: a member of the variable, or an assignment to
it. -/
theorem succ_memberOf (ih : ExprSound n) {p q r : ParseState} {t : Expr} {v : Variable}
    {c : Context} (hp : Ready p) (hk : p.previous.kind = .identifier)
    (hv : p.context.resolve? p.previous.text = some (v, c)) (hr : r = p.withContext c)
    (hdot : r.current.kind = .dot) (hn : 4 * p.stream.length + 1 ≤ n)
    (h : (match r.advance.readMember with
      | (none, p) => (Expr.invalid 0, p)
      | (some m, p) =>
        if p.at? .equal then
          let (value, p) := readExpr n .assignment p.advance
          (.setMember v m value p.line, p)
        else (.member (.get v p.line) m p.line, p)) = (t, q))
    (hc : q.diagnostics = []) :
    ∃ level e, Reads [p.previous] p.context true p q level e t ∧
      q.current.kind.BindsUpto level ∧ e.isName = false := by
  have hkr : Keeps p r := hr ▸ keeps_withContext p c
  have hrs : p.stream = r.stream := by rw [hr]; rfl
  have hrr : Ready r := hp.skip hkr (show p.stream = [] ++ r.stream from hrs)
  have heof : r.current.kind ≠ .eof := by rw [hdot]; simp
  -- whatever follows the member, its state keeps the errors of the one after the member
  have hkq : Keeps r.advance.readMember.2 q := by
    split at h
    · next s hs =>
      obtain ⟨-, rfl⟩ := Prod.mk.inj h
      rw [hs]
      exact .refl _
    · next m s hs =>
      rw [hs]
      split at h
      · have := (keeps_advance s).trans (keeps_readExpr n .assignment s.advance)
        obtain ⟨-, rfl⟩ := Prod.mk.inj h
        exact this
      · obtain ⟨-, rfl⟩ := Prod.mk.inj h
        exact .refl _
  have hcm : r.advance.readMember.2.diagnostics = [] := hkq.clean hc
  have ht := takes_advance hrr.sane hrr.orderly heof ((keeps_readMember _).clean hcm)
  have ha : Ready r.advance := hrr.take (keeps_advance r) ht heof
  obtain ⟨m, hm, hname, hid, htm⟩ := readMember_clean ha.sane ha.orderly hcm
  rcases hx : r.advance.readMember with ⟨o, s⟩
  rw [hx] at h hkq hcm hm htm
  obtain rfl : o = some m := hm
  have hks : Keeps r.advance s := (keeps_readMember r.advance).result hx
  have hmeof : r.advance.current.kind ≠ .eof := by rw [hid]; simp
  have hrs' : Ready s := ha.take hks htm hmeof
  have hstream : p.stream = r.current :: r.advance.current :: s.stream := by
    rw [hrs, ht.stream, htm.stream]
  have hctx : s.context = c := by rw [htm.context, ht.context, hr]; rfl
  simp only at h
  split at h
  · next heq =>
    have heq' : s.current.kind = .equal := by simpa [at?] using heq
    rcases hy : readExpr n .assignment s.advance with ⟨t₁, u⟩
    rw [hy] at h
    obtain ⟨rfl, rfl⟩ := Prod.mk.inj h
    obtain ⟨e, hreads, hupto⟩ :=
      succ_assignMember ih hk hv hdot hid hname hrs' hstream hctx heq' hn hy hc
    exact ⟨_, _, hreads, hupto, rfl⟩
  · obtain ⟨rfl, rfl⟩ := Prod.mk.inj h
    refine ⟨.call, .member (.name p.previous.text p.previous.line) r.advance.current.text
      r.advance.current.line, ⟨⟨[r.current, r.advance.current], ?_, ?_⟩, ?_, htm.line⟩,
      TokenKind.bindsUpto_call _, rfl⟩
    · rw [hstream]
      simp
    · exact .member ((Derives.name hk).weaken (by simp [Precedence.rank])) hdot hid
    · simp [Term.elaborate, hv, hname, hctx, htm.line]

/-- A name was read as a variable or, where this is allowed, as an assignment. -/
theorem succ_name (ih : ExprSound n) {assignable : Bool} {p q : ParseState} {t : Expr}
    (hp : Ready p) (hk : p.previous.kind = .identifier) (hx : p.previous.text ≠ "")
    (hn : 4 * p.stream.length + 2 ≤ n + 1) (h : readName (n + 1) assignable p = (t, q))
    (hc : q.diagnostics = []) :
    ∃ level e, Reads [p.previous] p.context assignable p q level e t ∧
      q.current.kind.BindsUpto level ∧
      (assignable = false → Precedence.unary.rank ≤ level.rank) ∧
      (assignable = true → e.isName = true → q.current.kind ≠ .dot) := by
  cases hv : p.context.resolve? p.previous.text with
  | none =>
    have hkeep := ((exprKeeps n).succ_resolve assignable p).result h
    exact absurd hc (hkeep.failed (resolve_failed hp.sane hx hv))
  | some w =>
    obtain ⟨v, c⟩ := w
    rw [readName, resolve_eq hv] at h
    simp only at h
    split at h
    · next hcond =>
      obtain ⟨rfl, heq⟩ : assignable = true ∧ (p.withContext c).current.kind = .equal := by
        simpa [at?] using hcond
      obtain ⟨e, hread, hbelow, hname⟩ := succ_assign ih hp hk hv rfl heq (by omega) h hc
      exact ⟨_, e, hread, fun s hs => Nat.le_of_lt (hbelow s hs), by simp, by simp [hname]⟩
    · split at h
      · next hcond =>
        obtain ⟨rfl, hdot⟩ : assignable = true ∧ (p.withContext c).current.kind = .dot := by
          simpa [at?] using hcond
        obtain ⟨level, e, hread, hupto, hname⟩ := succ_memberOf ih hp hk hv rfl hdot (by omega) h hc
        exact ⟨level, e, hread, hupto, by simp, by simp [hname]⟩
      · next hcond =>
        obtain ⟨rfl, rfl⟩ := Prod.mk.inj h
        refine ⟨.primary, .name p.previous.text p.previous.line, ⟨⟨[], rfl, .name hk⟩, ?_, rfl⟩,
          ?_, fun _ => by simp [Precedence.rank], ?_⟩
        · simp [Term.elaborate, hv, line]
        · exact (TokenKind.bindsUpto_call _).mono (by simp [Precedence.rank])
        · intro ha _ hdot
          exact hcond (by simpa [at?, ha] using hdot)

/-- Each suffix is read onto the expression before it, until one binds too weakly. -/
theorem succ_suffixes (ih : ExprSound n) {before : List Token} {c : Context} {head : Bool}
    {p₀ p q : ParseState} {level least : Precedence} {e₀ : Term} {t₀ t : Expr} (hp : Ready p)
    (hl : least.rank ≤ level.rank) (hread : Reads before c head p₀ p level e₀ t₀)
    (hupto : p.current.kind.BindsUpto level)
    (hdot : head = true → e₀.isName = true → p.current.kind ≠ .dot)
    (hn : 4 * p.stream.length + 1 ≤ n + 1) (h : readSuffixes (n + 1) least t₀ p = (t, q))
    (hc : q.diagnostics = []) :
    ∃ e, Reads before c head p₀ q least e t ∧ q.current.kind.BindsBelow least := by
  rw [readSuffixes] at h
  split at h
  · next hs =>
    obtain ⟨rfl, rfl⟩ := Prod.mk.inj h
    refine ⟨e₀, hread.weaken hl, fun s hs' => ?_⟩
    rw [hs] at hs'
    simp at hs'
  · next s hs =>
    split at h
    · next hlt =>
      obtain ⟨rfl, rfl⟩ := Prod.mk.inj h
      refine ⟨e₀, hread.weaken hl, fun s' hs' => ?_⟩
      obtain rfl : s = s' := by simpa [hs] using hs'
      exact hlt
    · next hge =>
      -- the suffix binds strongly enough, so it is read, and then those behind it
      rcases hx : readSuffix n s t₀ p.advance with ⟨t₁, r⟩
      rw [hx] at h
      have hkr : Keeps p.advance r := ((exprKeeps n).suffix s t₀ p.advance).result hx
      have hkq : Keeps r q := by
        simp only at h
        exact ((exprKeeps n).suffixes least t₁ r).result h
      have hcr : r.diagnostics = [] := hkq.clean hc
      have heof : p.current.kind ≠ .eof := by
        intro he
        rw [he] at hs
        simp [TokenKind.suffix?] at hs
      have ht := takes_advance hp.sane hp.orderly heof (hkr.clean hcr)
      have ha : Ready p.advance := hp.take (keeps_advance p) ht heof
      have hlen : p.stream.length = p.advance.stream.length + 1 := by rw [ht.stream]; simp
      obtain ⟨e₁, hread₁, hupto₁, hname, us, hus⟩ :=
        ih.suffix ha ht hs (hread.weaken (hupto s hs)) hdot (by omega) hx hcr
      have hrr : Ready r := ha.skip hkr hus
      have hrl : r.stream.length ≤ p.advance.stream.length := by rw [hus]; simp
      exact ih.suffixes hrr (by omega) hread₁ hupto₁ (by simp [hname]) (by omega) h hc

/-- A call was read with its arguments up to the closing parenthesis. -/
theorem succ_call (ih : ExprSound n) {before : List Token} {c : Context} {head : Bool}
    {p₀ p p' q : ParseState} {e₀ : Term} {t₀ t : Expr} (hp : Ready p) (ht : Takes p₀ p)
    (hlp : p₀.current.kind = .leftParen) (hread : Reads before c head p' p₀ .call e₀ t₀)
    (hn : 4 * p.stream.length + 2 ≤ n) (h : readSuffix (n + 1) .call t₀ p = (t, q))
    (hc : q.diagnostics = []) :
    ∃ e, Reads before c head p' q .call e t ∧ e.isName = false ∧
    ∃ us, p.stream = us ++ q.stream := by
  obtain ⟨⟨ts, hts, hd⟩, hres, -⟩ := hread
  rw [readSuffix] at h
  split at h
  rename_i arguments r hargs
  obtain ⟨rfl, rfl⟩ := Prod.mk.inj h
  split at hargs
  · next hrp =>
    -- no arguments
    obtain ⟨rfl, rfl⟩ := Prod.mk.inj hargs
    obtain ⟨hrp', htr⟩ := takes_expect hp.sane hp.orderly (by simp) hc
    refine ⟨.call e₀ [] p.current.line,
      ⟨⟨ts ++ [p₀.current, p.current], ?_, ?_⟩, ?_, htr.line⟩, rfl,
      [p.current], by rw [htr.stream]; simp⟩
    · rw [hts, ht.stream, htr.stream]
      simp
    · rw [← List.append_assoc]
      exact .call hd hlp hrp'
    · simp [Term.elaborate, Term.elaborateAll, hres, htr.context, ht.context, htr.line,
        maxArguments]
  · have hkr : Keeps p r := ((exprKeeps n).arguments [] p).result hargs
    obtain ⟨es, us, ⟨⟨vs, hvs, hdv⟩, hresv⟩, rfl, hmax⟩ :=
      ih.arguments hp hn hargs ((keeps_expect r _ _).clean hc) (by simp [maxArguments])
    have hr : Ready r := hp.skip hkr hvs
    obtain ⟨hrp', htr⟩ := takes_expect hr.sane hr.orderly (by simp) hc
    refine ⟨.call e₀ es r.current.line,
      ⟨⟨ts ++ p₀.current :: vs ++ [r.current], ?_, ?_⟩, ?_, htr.line⟩,
      rfl, vs ++ [r.current], by rw [hvs, htr.stream]; simp⟩
    · rw [hts, ht.stream, hvs, htr.stream]
      simp
    · have := Derives.callWith hd hlp hdv hrp'
      simpa using this
    · have hmax' : es.length ≤ maxArguments := by simpa using hmax
      rw [ht.context] at hresv
      simp [Term.elaborate, hres, hresv, htr.context, htr.line, hmax']

/-- A member was read with its name. -/
theorem succ_member {before : List Token} {c : Context} {head : Bool}
    {p₀ p p' q : ParseState} {e₀ : Term} {t₀ t : Expr} (hp : Ready p) (ht : Takes p₀ p)
    (hk : p₀.current.kind = .dot) (hread : Reads before c head p' p₀ .call e₀ t₀)
    (hdot : head = true → e₀.isName = true → p₀.current.kind ≠ .dot)
    (h : readSuffix (n + 1) .member t₀ p = (t, q)) (hc : q.diagnostics = []) :
    ∃ e, Reads before c head p' q .call e t ∧ e.isName = false ∧
    ∃ us, p.stream = us ++ q.stream := by
  obtain ⟨⟨ts, hts, hd⟩, hres, -⟩ := hread
  rw [readSuffix] at h
  -- a name that is no member would have been reported
  have hcm : p.readMember.2.diagnostics = [] := by
    split at h
    · next m r hr =>
      obtain ⟨-, rfl⟩ := Prod.mk.inj h
      rw [hr]
      exact hc
    · next r hr =>
      obtain ⟨-, rfl⟩ := Prod.mk.inj h
      rw [hr]
      exact hc
  obtain ⟨m, hm, hname, hid, htm⟩ := readMember_clean hp.sane hp.orderly hcm
  rcases hx : p.readMember with ⟨o, r⟩
  rw [hx] at h hm htm
  obtain rfl : o = some m := hm
  obtain ⟨rfl, rfl⟩ := Prod.mk.inj h
  have hnotName : head = true → e₀.isName = false := by
    intro hh
    cases hi : e₀.isName with
    | false => rfl
    | true => exact absurd hk (hdot hh hi)
  refine ⟨.member e₀ p.current.text p.current.line,
    ⟨⟨ts ++ [p₀.current, p.current], ?_, ?_⟩, ?_, htm.line⟩, rfl, [p.current], by
    rw [htm.stream]; rfl⟩
  · rw [hts, ht.stream, htm.stream]
    simp
  · rw [← List.append_assoc]
    exact .member hd hk hid
  · rw [Term.elaborate_member _ _ _ hnotName]
    simp [hres, hname, htm.context, ht.context, htm.line]

/-- An operator was read with a right operand of the next stronger level. -/
theorem succ_operator (ih : ExprSound n) {before : List Token} {c : Context} {head : Bool}
    {p₀ p p' q : ParseState} {op : BinaryOp} {level : Precedence} {e₀ : Term} {t₀ t : Expr}
    (hp : Ready p) (ht : Takes p₀ p) (hop : BinaryAt level p₀.current.kind op)
    (hread : Reads before c head p' p₀ level e₀ t₀) (hn : 4 * p.stream.length + 1 ≤ n)
    (h : readSuffix (n + 1) (.operator op level) t₀ p = (t, q)) (hc : q.diagnostics = []) :
    ∃ e, Reads before c head p' q level e t ∧ q.current.kind.BindsUpto level ∧ e.isName = false ∧
      ∃ us, p.stream = us ++ q.stream := by
  obtain ⟨⟨ts, hts, hd⟩, hres, -⟩ := hread
  have hlt := hop.rank_lt
  have hprim : level.rank < Precedence.primary.rank := by
    simp only [Precedence.rank] at hlt ⊢
    omega
  have hnext := Precedence.rank_next hprim
  rw [readSuffix] at h
  rcases hx : readExpr n level.next p with ⟨t₁, r⟩
  rw [hx] at h
  obtain ⟨rfl, rfl⟩ := Prod.mk.inj h
  obtain ⟨e, ⟨⟨us, hus, hdu⟩, hresu, hline⟩, hbelow⟩ := ih.expr hp (by omega) hn hx hc
  refine ⟨.binary op e₀ e, ⟨⟨ts ++ p₀.current :: us, ?_, ?_⟩, ?_, hline⟩, hbelow.upto hprim,
    rfl, us, hus⟩
  · rw [hts, ht.stream, hus]
    simp
  · rw [← List.append_assoc]
    exact .binary hd hop hdu
  · have hresu' : e.elaborate false p₀.context = some (t₁, r.context) := by
      rw [ht.context] at hresu
      have hz : ¬ level.next.rank ≤ Precedence.assignment.rank := by
        rw [hnext]
        exact Nat.not_succ_le_zero _
      simpa [hz] using hresu
    simp [Term.elaborate, hres, hresu', hline]

/-- A suffix is one of the three, on its own level. -/
theorem succ_suffix (ih : ExprSound n) {before : List Token} {c : Context} {head : Bool}
    {p₀ p p' q : ParseState} {s : Suffix} {e₀ : Term} {t₀ t : Expr} (hp : Ready p) (ht : Takes p₀ p)
    (hs : p₀.current.kind.suffix? = some s) (hread : Reads before c head p' p₀ s.strength e₀ t₀)
    (hdot : head = true → e₀.isName = true → p₀.current.kind ≠ .dot)
    (hn : 4 * p.stream.length + 3 ≤ n + 1) (h : readSuffix (n + 1) s t₀ p = (t, q))
    (hc : q.diagnostics = []) :
    ∃ e, Reads before c head p' q s.strength e t ∧ q.current.kind.BindsUpto s.strength ∧
      e.isName = false ∧ ∃ us, p.stream = us ++ q.stream := by
  cases s with
  | call =>
    have hlp : p₀.current.kind = .leftParen := by
      cases hk : p₀.current.kind <;> simp [hk, TokenKind.suffix?] at hs ⊢
    obtain ⟨e, hr, hname, hus⟩ := succ_call ih hp ht hlp hread (by omega) h hc
    exact ⟨e, hr, TokenKind.bindsUpto_call _, hname, hus⟩
  | member =>
    have hk : p₀.current.kind = .dot := by
      cases hk : p₀.current.kind <;> simp [hk, TokenKind.suffix?] at hs ⊢
    obtain ⟨e, hr, hname, hus⟩ := succ_member hp ht hk hread hdot h hc
    exact ⟨e, hr, TokenKind.bindsUpto_call _, hname, hus⟩
  | logical strength =>
    rw [readSuffix] at h
    have hk := keeps_readExpr n strength.next (p.complain .logicalOperator)
    obtain ⟨-, rfl⟩ := Prod.mk.inj h
    exact absurd hc (hk.failed (complain_failed hp.sane _))
  | operator op level =>
    exact succ_operator ih hp ht (BinaryAt.iff_suffix.mpr hs) hread (by omega) h hc

/-- The arguments were read one by one, and they are not too many. -/
theorem succ_arguments (ih : ExprSound n) {read : List Expr} {p q : ParseState} {ts : List Expr}
    (hp : Ready p) (hn : 4 * p.stream.length + 2 ≤ n + 1)
    (h : readArguments (n + 1) read p = (ts, q)) (hc : q.diagnostics = [])
    (hmax : read.length ≤ maxArguments) :
    ∃ es us, ReadsAll p q es us ∧ ts = read.reverse ++ us ∧
      read.length + es.length ≤ maxArguments := by
  rw [readArguments] at h
  rcases hx : readExpr n .assignment p with ⟨t₁, r⟩
  rw [hx] at h
  have hkr : Keeps p r := (keeps_readExpr n .assignment p).result hx
  simp only at h
  by_cases hfull : read.length = maxArguments
  · -- one argument too many
    rw [if_pos hfull] at h
    have hf := complain_failed (hkr.sane hp.sane) .tooManyArguments
    split at h
    · have hk := (keeps_advance (r.complain .tooManyArguments)).trans
        (((exprKeeps n).arguments (t₁ :: read) _).result h)
      exact absurd hc (hk.failed hf)
    · obtain ⟨-, rfl⟩ := Prod.mk.inj h
      exact absurd hc hf
  · rw [if_neg hfull] at h
    split at h
    · next hcomma =>
      have hcomma' : r.current.kind = .comma := by simpa [at?] using hcomma
      -- behind a comma there is another argument
      have hkq : Keeps r.advance q := ((exprKeeps n).arguments (t₁ :: read) r.advance).result h
      have hca : r.advance.diagnostics = [] := hkq.clean hc
      obtain ⟨e, ⟨⟨us, hus, hdu⟩, hresu, hline⟩, -⟩ :=
        ih.expr hp (by simp [Precedence.rank]) (by omega) hx ((keeps_advance r).clean hca)
      have hr : Ready r := hp.skip hkr hus
      have heof : r.current.kind ≠ .eof := by rw [hcomma']; simp
      have ht := takes_advance hr.sane hr.orderly heof hca
      have ha : Ready r.advance := hr.take (keeps_advance r) ht heof
      have hlen : r.advance.stream.length + 1 ≤ p.stream.length := by
        rw [hus, ht.stream]
        simp
      obtain ⟨es, vs, ⟨⟨ws, hws, hdw⟩, hresw⟩, rfl, hmax'⟩ :=
        ih.arguments ha (by omega) h hc (by simp; omega)
      refine ⟨e :: es, t₁ :: vs, ⟨⟨us ++ r.current :: ws, ?_, .more hdu hcomma' hdw⟩,
        ?_⟩, by simp, ?_⟩
      · rw [hus, ht.stream, hws]
        simp
      · have hresu' : e.elaborate true p.context = some (t₁, r.context) := by
          simpa [Precedence.rank] using hresu
        rw [ht.context] at hresw
        simp [Term.elaborateAll, hresu', hresw]
      · simp at hmax' ⊢
        omega
    · obtain ⟨rfl, rfl⟩ := Prod.mk.inj h
      obtain ⟨e, ⟨⟨us, hus, hdu⟩, hresu, hline⟩, -⟩ :=
        ih.expr hp (by simp [Precedence.rank]) (by omega) hx hc
      refine ⟨[e], [t₁], ⟨⟨us, hus, .last hdu⟩, ?_⟩, by simp, ?_⟩
      · have hresu' : e.elaborate true p.context = some (t₁, r.context) := by
          simpa [Precedence.rank] using hresu
        simp [Term.elaborateAll, hresu']
      · rw [List.length_singleton]
        omega

end ExprSound

/-- Reading expressions is sound, with every budget that is large enough. -/
theorem exprSound (n : Nat) : ExprSound n := by
  induction n with
  | zero =>
    constructor
    · intro least p q t _ _ hn
      exact absurd hn (by omega)
    · intro assignable p q o _ _ hn
      exact absurd hn (by omega)
    · intro assignable p q t _ _ _ hn
      exact absurd hn (by omega)
    · intro before c head p₀ p q level least e₀ t₀ t _ _ _ _ _ hn
      exact absurd hn (by omega)
    · intro before c head p₀ p p' q s e₀ t₀ t _ _ _ _ _ hn
      exact absurd hn (by omega)
    · intro read p q ts _ hn
      exact absurd hn (by omega)
  | succ n ih =>
    exact ⟨ih.succ_expr, ih.succ_operand, ih.succ_name, ih.succ_suffixes, ih.succ_suffix,
      ih.succ_arguments⟩

end ParseState

end EntityScript
