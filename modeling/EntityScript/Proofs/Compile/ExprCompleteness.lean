/-
# Reading expressions is complete

An expression that the grammar derives and the static rules allow is read without an error, to the
tree that the rules give.

The induction is on the derivation.  Operators of one level associate to the left, so a derivation
breaks off its last operator first, while the reader starts at the first operand; what the induction
shows of an expression is therefore that reading its first operand and then going on
(`readSuffixes`) is the same as going on after the whole expression.
-/
import EntityScript.Proofs.Compile.ExprSoundness

namespace EntityScript

namespace ParseState

/-- The state has no error, stands before the given tokens, none of which is bad, and knows the
context. -/
structure Stands (p : ParseState) (stream : List Token) (c : Context) : Prop where
  clean : p.diagnostics = []
  calm : p.panicking = false
  good : ∀ t ∈ p.rest, t.kind ≠ .error
  stream : p.stream = stream
  context : p.context = c

namespace Stands

variable {p : ParseState} {c : Context} {t u : Token} {us : List Token}

/-- The first of the tokens is the current one. -/
theorem current (h : Stands p (t :: us) c) : p.current = t := by
  have hs := h.stream
  rw [ParseState.stream] at hs
  exact (List.cons.inj hs).1

theorem rest (h : Stands p (t :: us) c) : p.rest = us := by
  have hs := h.stream
  rw [ParseState.stream] at hs
  exact (List.cons.inj hs).2

theorem at? (h : Stands p (t :: us) c) (k : TokenKind) : p.at? k = (t.kind == k) := by
  rw [ParseState.at?, h.current]

/-- Moving on takes a token. -/
theorem advance (h : Stands p (t :: u :: us) c) : Stands p.advance (u :: us) c := by
  have hr := h.rest
  have hu : u.kind ≠ .error := h.good u (by rw [hr]; simp)
  rw [advance_eq hr hu]
  refine ⟨h.clean, h.calm, ?_, rfl, h.context⟩
  intro v hv
  exact h.good v (by rw [hr]; exact List.mem_cons_of_mem u hv)

theorem previous (h : Stands p (t :: us) c) : p.advance.previous = t := by
  rw [previous_advance, h.current]

theorem line (h : Stands p (t :: us) c) : p.advance.line = t.line := by
  rw [ParseState.line, h.previous]

/-- What is expected is there. -/
theorem expect (h : Stands p (t :: us) c) {k : TokenKind} (hk : t.kind = k) (what : String) :
    p.expect k what = p.advance := by
  unfold ParseState.expect
  rw [if_pos (by rw [h.at?, hk]; simp)]

theorem withContext {ts : List Token} (h : Stands p ts c) (d : Context) :
    Stands (p.withContext d) ts d :=
  ⟨h.clean, h.calm, h.good, h.stream, rfl⟩

/-- A member is read as the rules say. -/
theorem readMember {m : Member} (h : Stands p (t :: u :: us) c) (hk : t.kind = .identifier)
    (hm : Member.ofName? t.text = some m) : p.readMember = (some m, p.advance) := by
  unfold ParseState.readMember
  simp only [h.expect hk, h.previous, hk, hm, if_true]

end Stands

/-- No token continues an expression with the strength of a sign. -/
theorem bindsBelow_of_bindsUpto {level : Precedence} {k : TokenKind} (h : k.BindsUpto level)
    (hl : level.rank = Precedence.unary.rank ∨ level.rank = Precedence.assignment.rank) :
    k.BindsBelow level := by
  intro s hs
  have hle := h s hs
  have hne : s.strength.rank ≠ Precedence.unary.rank ∧
      s.strength.rank ≠ Precedence.assignment.rank := by
    cases k <;> simp [TokenKind.suffix?] at hs <;> subst hs <;>
      simp [Suffix.strength, Precedence.rank]
  rcases hl with hl | hl <;> omega

/-- Reading stops before what binds less strongly. -/
theorem readSuffixes_stop {n : Nat} {least : Precedence} {t : Expr} {p : ParseState}
    (h : p.current.kind.BindsBelow least) : readSuffixes (n + 1) least t p = (t, p) := by
  rw [readSuffixes]
  split
  · rfl
  · next s hs => rw [if_pos (h s hs)]

/-- What the tokens of a phrase do to the reader. -/
def Completes (ts : List Token) : Phrase → Prop
  | .expr level e => ∀ ⦃n : Nat⦄ ⦃least : Precedence⦄ ⦃p : ParseState⦄ ⦃c c' : Context⦄ ⦃t : Expr⦄
      ⦃r : Token⦄ ⦃rs : List Token⦄, Stands p (ts ++ r :: rs) c → least.rank ≤ level.rank →
      e.elaborate (least.rank ≤ Precedence.assignment.rank) c = some (t, c') →
      r.kind.BindsUpto level →
      (least.rank ≤ Precedence.assignment.rank → r.kind ≠ .equal ∧
        (e.isName = true → r.kind ≠ .dot)) →
      4 * ts.length ≤ n →
      ∃ t₀ q₀ n' q, readOperand n (least.rank ≤ Precedence.assignment.rank) p.advance =
      (some t₀, q₀) ∧
        readSuffixes n least t₀ q₀ = readSuffixes n' least t q ∧ n ≤ n' + ts.length ∧
        Stands q (r :: rs) c' ∧ q.line = e.lastLine
  | .arguments es => ∀ ⦃n : Nat⦄ (read : List Expr) ⦃p : ParseState⦄ ⦃c c' : Context⦄
      ⦃us : List Expr⦄ ⦃r : Token⦄ ⦃rs : List Token⦄, Stands p (ts ++ r :: rs) c →
      Term.elaborateAll es c = some (us, c') → r.kind = .rightParen →
      read.length + es.length ≤ maxArguments → 4 * ts.length + 2 ≤ n →
      ∃ q, readArguments n read p = (read.reverse ++ us, q) ∧ Stands q (r :: rs) c'

/-- An expression is read to its end, where nothing continues it. -/
theorem Completes.readExpr {ts : List Token} {level : Precedence} {e : Term}
    (h : Completes ts (.expr level e)) {n : Nat} {p : ParseState} {c c' : Context}
    {t : Expr} {r : Token} {rs : List Token} (hp : Stands p (ts ++ r :: rs) c) (hts : ts ≠ [])
    (he : e.elaborate (level.rank ≤ Precedence.assignment.rank) c = some (t, c'))
    (hr : r.kind.BindsBelow level)
    (heq : level.rank ≤ Precedence.assignment.rank →
      r.kind ≠ .equal ∧ (e.isName = true → r.kind ≠ .dot))
    (hn : 4 * ts.length + 1 ≤ n) :
    ∃ q, readExpr n level p = (t, q) ∧ Stands q (r :: rs) c' ∧ q.line = e.lastLine := by
  obtain ⟨m, rfl⟩ : ∃ m, n = m + 1 := ⟨n - 1, by omega⟩
  obtain ⟨t₀, q₀, n', q, hop, hsuf, hn', hq, hline⟩ :=
    h (n := m) hp (Nat.le_refl _) he (fun s hs => Nat.le_of_lt (hr s hs)) heq (by omega)
  have hpos := List.length_pos_iff.mpr hts
  obtain ⟨k, rfl⟩ : ∃ k, n' = k + 1 := ⟨n' - 1, by omega⟩
  have hstop : readSuffixes (k + 1) level t q = (t, q) :=
    readSuffixes_stop (by rw [hq.current]; exact hr)
  refine ⟨q, ?_, hq, hline⟩
  rw [ParseState.readExpr]
  simp only [hop, hsuf, hstop]
  rw [if_neg]
  intro hb
  simp only [Bool.and_eq_true, decide_eq_true_eq, hq.at?, beq_iff_eq] at hb
  exact (heq hb.1).1 hb.2

/-! ## One rule at a time -/

/-- An operand that is a single token. -/
theorem Completes.token {t : Token} {e : Term} (hline : t.line = e.lastLine)
    (hread : ∀ {n : Nat} {assignable : Bool} {p : ParseState} {c c' : Context} {x : Expr}
      {ts : List Token},
      Stands p ts c → p.previous = t → e.elaborate assignable c = some (x, c') →
      readOperand (n + 1) assignable p = (some x, p.withContext c')) :
    Completes [t] (.expr .primary e) := by
  intro n least p c c' x r rs hp hl he hr heq hn
  obtain ⟨m, rfl⟩ : ∃ m, n = m + 1 := ⟨n - 1, by simp at hn; omega⟩
  refine ⟨x, p.advance.withContext c', m + 1, p.advance.withContext c',
    hread hp.advance hp.previous he, rfl, by omega, hp.advance.withContext c', ?_⟩
  rw [line_withContext, hp.line, hline]

/-- A name that is resolved, with or without an assignment that could come. -/
theorem Completes.name {t : Token} (hk : t.kind = .identifier) :
    Completes [t] (.expr .primary (.name t.text t.line)) := by
  intro n least p c c' x r rs hp hl he hr heq hn
  obtain ⟨m, rfl⟩ : ∃ m, n = m + 2 := ⟨n - 2, by simp at hn; omega⟩
  have ha : Stands p.advance (r :: rs) c := hp.advance
  simp only [Term.elaborate, Option.bind_eq_bind, Option.bind_eq_some_iff] at he
  obtain ⟨⟨v, d⟩, hv, he⟩ := he
  obtain ⟨rfl, rfl⟩ := Prod.mk.inj (Option.some.inj he)
  have hv' : p.advance.resolve p.advance.previous.text = (some v, p.advance.withContext d) := by
    rw [hp.previous]
    exact resolve_eq (by rw [ha.context]; exact hv)
  have hw := ha.withContext d
  refine ⟨.get v t.line, p.advance.withContext d, m + 2, p.advance.withContext d, ?_,
    rfl, by omega, hw, ?_⟩
  · -- neither an assignment nor a member of the name begins here
    have hnone : ∀ k : TokenKind, k = .equal ∨ k = .dot →
        (decide (least.rank ≤ Precedence.assignment.rank) && (p.advance.withContext d).at? k) =
        false := by
      intro k hk
      rw [hw.at?]
      by_cases hb : least.rank ≤ Precedence.assignment.rank
      · obtain ⟨h₁, h₂⟩ := heq hb
        rcases hk with rfl | rfl
        · simp [h₁]
        · simp [h₂ rfl]
      · simp [hb]
    rw [readOperand, hp.previous, hk]
    simp only [readName, hv', hnone _ (.inl rfl), hnone _ (.inr rfl), Bool.false_eq_true, if_false,
      line_withContext, hp.line]
    rfl
  · rw [line_withContext, hp.line]
    rfl

/-- An expression in parentheses is read again from the weakest level. -/
theorem Completes.group {lp rp : Token} {ts : List Token} {e : Term} (hlp : lp.kind = .leftParen)
    (hd : Derives ts (.expr .assignment e)) (ih : Completes ts (.expr .assignment e))
    (hrp : rp.kind = .rightParen) :
    Completes (lp :: ts ++ [rp]) (.expr .primary (.group e rp.line)) := by
  intro n least p c c' x r rs hp hl he hr heq hn
  obtain ⟨u, us, rfl, -⟩ := hd.head
  have hlen : (lp :: (u :: us) ++ [rp]).length = us.length + 3 := by simp
  rw [hlen] at hn
  obtain ⟨m, rfl⟩ : ∃ m, n = m + 1 := ⟨n - 1, by omega⟩
  have hp' : Stands p (lp :: u :: (us ++ rp :: r :: rs)) c := by simpa using hp
  rw [Term.elaborate] at he
  have hbelow : rp.kind.BindsBelow .assignment := by
    intro s hs
    rw [hrp] at hs
    simp [TokenKind.suffix?] at hs
  have ha : Stands p.advance (u :: us ++ rp :: r :: rs) c := by simpa using hp'.advance
  obtain ⟨q, hx, hq, -⟩ := ih.readExpr (n := m) ha (by simp)
    (by simpa [Precedence.rank] using he) hbelow (fun _ => by simp [hrp]) (by simp; omega)
  refine ⟨x, q.advance, m + 1, q.advance, ?_, rfl, by omega, hq.advance, hq.line⟩
  rw [readOperand, hp'.previous, hlp]
  simp only [hx, hq.expect hrp]

/-- An operator in front of its operand. -/
theorem Completes.unary {t : Token} {ts : List Token} {op : UnaryOp} {e : Term}
    (hop : UnaryAt t.kind op) (hd : Derives ts (.expr .unary e))
    (ih : Completes ts (.expr .unary e)) :
    Completes (t :: ts) (.expr .unary (.unary op e)) := by
  intro n least p c c' x r rs hp hl he hr heq hn
  obtain ⟨u, us, rfl, -⟩ := hd.head
  rw [List.length_cons] at hn
  obtain ⟨m, rfl⟩ : ∃ m, n = m + 1 := ⟨n - 1, by omega⟩
  have hp' : Stands p (t :: u :: (us ++ r :: rs)) c := by simpa using hp
  simp only [Term.elaborate, Option.bind_eq_bind, Option.bind_eq_some_iff] at he
  obtain ⟨⟨x₁, d⟩, he₁, he⟩ := he
  obtain ⟨rfl, rfl⟩ := Prod.mk.inj (Option.some.inj he)
  have ha : Stands p.advance (u :: us ++ r :: rs) c := by simpa using hp'.advance
  obtain ⟨q, hx, hq, hline⟩ := ih.readExpr (n := m) ha (by simp)
    (by simpa [Precedence.rank] using he₁) (bindsBelow_of_bindsUpto hr (.inl rfl))
    (fun h => by simp [Precedence.rank] at h) (by omega)
  refine ⟨.unary op x₁ e.lastLine, q, m + 1, q, ?_, rfl, by omega, hq, hline⟩
  rw [readOperand, hp'.previous]
  generalize t.kind = k at hop ⊢
  cases hop with
  | negate | not => simp only [hx, hline]

/-- The value of an assignment is read to its end. -/
theorem Completes.value {ts : List Token} {e : Term} (hd : Derives ts (.expr .assignment e))
    (ih : Completes ts (.expr .assignment e)) {n : Nat} {p : ParseState} {c c' : Context} {t : Expr}
    {r : Token} {rs : List Token} (hp : Stands p (ts ++ r :: rs) c)
    (he : e.elaborate true c = some (t, c')) (hr : r.kind.BindsUpto .assignment)
    (heq : r.kind ≠ .equal) (hn : 4 * ts.length + 1 ≤ n) :
    ∃ q, ParseState.readExpr n .assignment p = (t, q) ∧ Stands q (r :: rs) c' ∧
    q.line = e.lastLine := by
  have hbelow := bindsBelow_of_bindsUpto hr (.inr rfl)
  refine ih.readExpr hp ?_ (by simpa [Precedence.rank] using he) hbelow ?_ hn
  · obtain ⟨u, us, rfl, -⟩ := hd.head
    simp
  · refine fun _ => ⟨heq, fun _ hdot => ?_⟩
    have := hbelow .member (by rw [hdot]; rfl)
    simp [Precedence.rank] at this

/-- An assignment to a variable, whose value is the rest of the expression. -/
theorem Completes.assign {x eq : Token} {ts : List Token} {value : Term} (hx : x.kind = .identifier)
    (heq : eq.kind = .equal) (hd : Derives ts (.expr .assignment value))
    (ih : Completes ts (.expr .assignment value)) :
    Completes (x :: eq :: ts) (.expr .assignment (.assign x.text value)) := by
  intro n least p c c' y r rs hp hl he hr hreq hn
  obtain ⟨u, us, rfl, -⟩ := hd.head
  have hlen : (x :: eq :: (u :: us)).length = us.length + 3 := by simp
  rw [hlen] at hn
  obtain ⟨m, rfl⟩ : ∃ m, n = m + 2 := ⟨n - 2, by omega⟩
  have hp' : Stands p (x :: eq :: u :: (us ++ r :: rs)) c := by simpa using hp
  simp only [Term.elaborate, Option.bind_eq_bind, Option.bind_eq_some_iff] at he
  obtain ⟨⟨v, d⟩, hv, ⟨y₁, d'⟩, hy, he⟩ := he
  obtain ⟨rfl, rfl⟩ := Prod.mk.inj (Option.some.inj he)
  have hv' : p.advance.resolve p.advance.previous.text = (some v, p.advance.withContext d) := by
    rw [hp'.previous]
    exact resolve_eq (by rw [hp'.advance.context]; exact hv)
  have hw := hp'.advance.withContext d
  have ha : Stands (p.advance.withContext d).advance (u :: us ++ r :: rs) d := by
    simpa using hw.advance
  obtain ⟨q, hread, hq, hline⟩ := ih.value hd (n := m) ha hy hr (hreq hl).1 (by simp; omega)
  refine ⟨.set v y₁ value.lastLine, q, m + 2, q, ?_, rfl, by omega, hq, hline⟩
  rw [readOperand, hp'.previous, hx]
  simp only [readName, hv', hw.at?, heq, hl, decide_true, beq_self_eq_true, Bool.and_self, if_true,
    hread, hline]
  rfl

/-- An assignment to a member of a variable. -/
theorem Completes.assignMember {x dot m eq : Token} {ts : List Token} {value : Term}
    (hx : x.kind = .identifier) (hdot : dot.kind = .dot) (hm : m.kind = .identifier)
    (heq : eq.kind = .equal) (hd : Derives ts (.expr .assignment value))
    (ih : Completes ts (.expr .assignment value)) :
    Completes (x :: dot :: m :: eq :: ts)
      (.expr .assignment (.assignMember x.text m.text value)) := by
  intro n least p c c' y r rs hp hl he hr hreq hn
  obtain ⟨u, us, rfl, -⟩ := hd.head
  have hlen : (x :: dot :: m :: eq :: (u :: us)).length = us.length + 5 := by simp
  rw [hlen] at hn
  obtain ⟨k, rfl⟩ : ∃ k, n = k + 2 := ⟨n - 2, by omega⟩
  have hp' : Stands p (x :: dot :: m :: eq :: u :: (us ++ r :: rs)) c := by simpa using hp
  simp only [Term.elaborate, Option.bind_eq_bind, Option.bind_eq_some_iff] at he
  obtain ⟨⟨v, d⟩, hv, mem, hmem, ⟨y₁, d'⟩, hy, he⟩ := he
  obtain ⟨rfl, rfl⟩ := Prod.mk.inj (Option.some.inj he)
  have hv' : p.advance.resolve p.advance.previous.text = (some v, p.advance.withContext d) := by
    rw [hp'.previous]
    exact resolve_eq (by rw [hp'.advance.context]; exact hv)
  have hw := hp'.advance.withContext d
  have hwm := hw.advance.advance
  have ha : Stands (p.advance.withContext d).advance.advance.advance (u :: us ++ r :: rs) d := by
    simpa using hwm.advance
  obtain ⟨q, hread, hq, hline⟩ := ih.value hd (n := k) ha hy hr (hreq hl).1 (by simp; omega)
  refine ⟨.setMember v mem y₁ value.lastLine, q, k + 2, q, ?_, rfl, by omega, hq, hline⟩
  rw [readOperand, hp'.previous, hx]
  simp only [readName, hv', hw.at?, hdot, hw.advance.readMember hm hmem, hwm.at?, heq, hl,
    decide_true, beq_self_eq_true, Bool.and_self, if_true, hread, hline, Bool.true_and]
  rfl

/-- A tree that is only a name was written as one token, at every level. -/
theorem derives_name {ts : List Token} {level : Precedence} {x : String} {line : Nat}
    (h : Derives ts (.expr level (.name x line))) :
    ∃ t, ts = [t] ∧ t.kind = .identifier ∧ t.text = x ∧ t.line = line := by
  generalize hφ : Phrase.expr level (.name x line) = φ at h
  induction h generalizing level with
  | name hk =>
    obtain ⟨-, he⟩ := Phrase.expr.inj hφ
    obtain ⟨rfl, rfl⟩ := Term.name.inj he
    exact ⟨_, rfl, hk, rfl, rfl⟩
  | stronger _ ih =>
    obtain ⟨-, rfl⟩ := Phrase.expr.inj hφ
    exact ih rfl
  | nil | yes | no | number | string | group | member | call | callWith | unary | binary | assign
  | assignMember | last | more => simp at hφ

/-- A member of a name at the head of an expression is read together with the name. -/
theorem readName_member {n : Nat} {p : ParseState} {c d : Context} {v : Variable} {mem : Member}
    {dot m r : Token} {rs : List Token} (hp : Stands p (dot :: m :: r :: rs) c)
    (hv : c.resolve? p.previous.text = some (v, d)) (hdot : dot.kind = .dot)
    (hm : m.kind = .identifier) (hmem : Member.ofName? m.text = some mem) (hr : r.kind ≠ .equal) :
    readName (n + 1) true p = (.member (.get v m.line) mem m.line,
      (p.withContext d).advance.advance) := by
  have hv' : p.resolve p.previous.text = (some v, p.withContext d) :=
    resolve_eq (by rw [hp.context]; exact hv)
  have hw := hp.withContext d
  have hr' : (r.kind == TokenKind.equal) = false := by simpa using hr
  simp only [readName, hv', hw.at?, hdot, hw.advance.readMember hm hmem,
    hw.advance.advance.at?, hr', hw.advance.line, Bool.true_and, Bool.false_eq_true, if_false,
    beq_self_eq_true, if_true]
  rfl

/-- A suffix that binds strongly enough is taken. -/
theorem readSuffixes_go {n : Nat} {least : Precedence} {s : Suffix} {t t' : Expr} {p q : ParseState}
    (hs : p.current.kind.suffix? = some s) (hl : least.rank ≤ s.strength.rank)
    (h : readSuffix n s t p.advance = (t', q)) :
    readSuffixes (n + 1) least t p = readSuffixes n least t' q := by
  rw [readSuffixes, hs]
  simp only [if_neg (Nat.not_lt.mpr hl), h]

/-- A member behind a call or a primary expression. -/
theorem Completes.member {dot m : Token} {ts : List Token} {e : Term}
    (hd : Derives ts (.expr .call e)) (ih : Completes ts (.expr .call e)) (hdot : dot.kind = .dot)
    (hm : m.kind = .identifier) :
    Completes (ts ++ [dot, m]) (.expr .call (.member e m.text m.line)) := by
  intro n least p c c' x r rs hp hl he hr hreq hn
  have hlen : (ts ++ [dot, m]).length = ts.length + 2 := by simp
  rw [hlen] at hn ⊢
  by_cases hhead : least.rank ≤ Precedence.assignment.rank ∧ e.isName = true
  · -- the name is read together with its member
    obtain ⟨hb, hname⟩ := hhead
    obtain ⟨y, line, rfl⟩ : ∃ y line, e = .name y line := by
      cases e with
      | name y line => exact ⟨y, line, rfl⟩
      | nil | bool | number | string | assign | assignMember | group | member | unary | binary
      | call =>
        simp [Term.isName] at hname
    obtain ⟨t, rfl, hk, rfl, rfl⟩ := derives_name hd
    obtain ⟨j, rfl⟩ : ∃ j, n = j + 2 := ⟨n - 2, by omega⟩
    have hp' : Stands p (t :: dot :: m :: r :: rs) c := by simpa using hp
    simp only [hb, decide_true, Term.elaborate, Option.bind_eq_bind, Option.bind_eq_some_iff] at he
    obtain ⟨⟨v, d⟩, hv, mem, hmem, he⟩ := he
    obtain ⟨rfl, rfl⟩ := Prod.mk.inj (Option.some.inj he)
    have hw := hp'.advance.withContext d
    have hread := readName_member (n := j) hp'.advance (by rw [hp'.previous]; exact hv) hdot hm hmem
      (hreq hb).1
    refine ⟨_, _, j + 2, _, ?_, rfl, by omega, hw.advance.advance, hw.advance.line⟩
    rw [readOperand, hp'.previous, hk]
    simp only [hb, decide_true, hread]
    rfl
  -- elsewhere the member is a suffix
  · rw [Term.elaborate_member _ _ _ (by simpa using hhead)] at he
    simp only [Option.bind_eq_bind, Option.bind_eq_some_iff] at he
    obtain ⟨⟨x₁, d⟩, hx, mem, hmem, he⟩ := he
    obtain ⟨rfl, rfl⟩ := Prod.mk.inj (Option.some.inj he)
    have hp' : Stands p (ts ++ dot :: m :: r :: rs) c := by simpa using hp
    obtain ⟨t₀, q₀, n', q, hop, hsuf, hn', hq, -⟩ :=
      ih (n := n) hp' hl hx (TokenKind.bindsUpto_call _)
      (fun hb => ⟨by simp [hdot], fun hname => absurd ⟨hb, hname⟩ hhead⟩) (by omega)
    obtain ⟨j, rfl⟩ : ∃ j, n' = j + 2 := ⟨n' - 2, by omega⟩
    refine ⟨t₀, q₀, j + 1, q.advance.advance, hop,
      ?_, by omega, hq.advance.advance, hq.advance.line⟩
    rw [hsuf]
    refine readSuffixes_go (s := .member) (by rw [hq.current, hdot]; rfl) hl ?_
    simp only [readSuffix, hq.advance.readMember hm hmem, hq.advance.line]

/-- Arguments in parentheses are taken after a callee. -/
theorem Completes.callSuffix {lp rp : Token} {ts us : List Token} {e : Term} {es : List Term}
    (ih : Completes ts (.expr .call e)) (hlp : lp.kind = .leftParen) (hrp : rp.kind = .rightParen)
    (hargs : ∀ {n : Nat} {p : ParseState} {c c' : Context} {xs : List Expr} {r : Token}
      {rs : List Token}, Stands p (us ++ rp :: r :: rs) c → Term.elaborateAll es c = some (xs, c') →
      es.length ≤ maxArguments → 4 * us.length + 2 ≤ n →
      ∃ q, (if p.at? .rightParen then ([], p) else readArguments n [] p) = (xs, q) ∧
        Stands q (rp :: r :: rs) c') :
    Completes (ts ++ lp :: us ++ [rp]) (.expr .call (.call e es rp.line)) := by
  intro n least p c c' x r rs hp hl he hr hreq hn
  have hlen : (ts ++ lp :: us ++ [rp]).length = ts.length + us.length + 2 := by
    simp
    omega
  rw [hlen] at hn ⊢
  simp only [Term.elaborate, Option.bind_eq_bind, Option.bind_eq_some_iff] at he
  obtain ⟨⟨f, d⟩, hf, ⟨xs, d'⟩, hxs, u, hmax, he⟩ := he
  obtain ⟨rfl, rfl⟩ := Prod.mk.inj (Option.some.inj he)
  have hmax' : es.length ≤ maxArguments := by
    by_contra hgt
    simp [guard, hgt] at hmax
  obtain ⟨u, us', hu⟩ : ∃ u us', us ++ rp :: r :: rs = u :: us' := by
    cases us with
    | nil => exact ⟨_, _, rfl⟩
    | cons v vs => exact ⟨_, _, rfl⟩
  have hp' : Stands p (ts ++ lp :: (us ++ rp :: r :: rs)) c := by simpa using hp
  obtain ⟨t₀, q₀, n', q, hop, hsuf, hn', hq, -⟩ :=
    ih (n := n) hp' hl hf (TokenKind.bindsUpto_call _)
    (fun _ => ⟨by simp [hlp], fun _ => by simp [hlp]⟩) (by omega)
  obtain ⟨j, rfl⟩ : ∃ j, n' = j + 2 := ⟨n' - 2, by omega⟩
  have hqa : Stands q.advance (us ++ rp :: r :: rs) d := by
    rw [hu] at hq ⊢
    exact hq.advance
  obtain ⟨q', hread, hq'⟩ := hargs (n := j) hqa hxs hmax' (by omega)
  refine ⟨t₀, q₀, j + 1, q'.advance, hop, ?_, by omega, hq'.advance, hq'.line⟩
  rw [hsuf]
  refine readSuffixes_go (s := .call) (by rw [hq.current, hlp]; rfl) hl ?_
  simp only [readSuffix, hread, hq'.expect hrp, hq'.line]

/-- An operator between its operands.  The right one is of the next stronger level. -/
theorem Completes.binary {t : Token} {ts us : List Token} {level : Precedence} {op : BinaryOp}
    {lhs rhs : Term} (ihl : Completes ts (.expr level lhs)) (hop : BinaryAt level t.kind op)
    (hdr : Derives us (.expr level.next rhs)) (ihr : Completes us (.expr level.next rhs)) :
    Completes (ts ++ t :: us) (.expr level (.binary op lhs rhs)) := by
  intro n least p c c' x r rs hp hl he hr hreq hn
  have hlen : (ts ++ t :: us).length = ts.length + us.length + 1 := by
    simp
    omega
  rw [hlen] at hn ⊢
  have hprim : level.rank < Precedence.primary.rank := by
    have hlt := hop.rank_lt
    simp only [Precedence.rank] at hlt ⊢
    omega
  have hnext := Precedence.rank_next hprim
  -- the right operand binds too strongly to be an assignment
  have hweak : ¬ level.next.rank ≤ Precedence.assignment.rank := by
    rw [hnext]
    exact Nat.not_succ_le_zero _
  have hs := BinaryAt.iff_suffix.mp hop
  simp only [Term.elaborate, Option.bind_eq_bind, Option.bind_eq_some_iff] at he
  obtain ⟨⟨x₁, d⟩, hx₁, ⟨x₂, d'⟩, hx₂, he⟩ := he
  obtain ⟨rfl, rfl⟩ := Prod.mk.inj (Option.some.inj he)
  obtain ⟨u, us', rfl, -⟩ := hdr.head
  have hp' : Stands p (ts ++ t :: u :: (us' ++ r :: rs)) c := by simpa using hp
  obtain ⟨t₀, q₀, n', q, hread, hsuf, hn', hq, -⟩ :=
    ihl (n := n) hp' hl hx₁
      (fun s' hs' => by
        obtain rfl : Suffix.operator op level = s' := by simpa [hs] using hs'
        exact Nat.le_refl _)
      (fun _ => by
        generalize t.kind = k at hop
        cases hop <;> simp)
      (by omega)
  -- enough of the budget is left behind the left operand
  obtain ⟨j, rfl⟩ : ∃ j, n' = j + 2 := ⟨n' - 2, by omega⟩
  have hqa : Stands q.advance (u :: us' ++ r :: rs) d := hq.advance
  obtain ⟨q', hread', hq', hline⟩ := ihr.readExpr (n := j) hqa (by simp)
    (by simpa [hweak] using hx₂) (fun s' hs' => by rw [hnext]; exact Nat.lt_succ_of_le (hr s' hs'))
    (fun h => absurd h hweak) (by omega)
  refine ⟨t₀, q₀, j + 1, q', hread, ?_, by omega, hq', hline⟩
  rw [hsuf]
  refine readSuffixes_go (s := .operator op level) (by rw [hq.current]; exact hs) hl ?_
  simp only [readSuffix, hread', hline]

/-- An expression of a stronger level is one of the weaker. -/
theorem Completes.stronger {ts : List Token} {level : Precedence} {e : Term}
    (ih : Completes ts (.expr level.next e)) : Completes ts (.expr level e) := by
  intro n least p c c' x r rs hp hl he hr hreq hn
  have hle : level.rank ≤ level.next.rank := by
    cases level <;> simp [Precedence.rank, Precedence.next]
  exact ih hp (Nat.le_trans hl hle) he (hr.mono hle) hreq hn

/-- One argument is read, and it is not one too many. -/
theorem Completes.argument {ts : List Token} {e : Term} (hd : Derives ts (.expr .assignment e))
    (ih : Completes ts (.expr .assignment e)) {n : Nat} (read : List Expr) {p : ParseState}
    {c c' : Context} {x : Expr} {r : Token} {rs : List Token} (hp : Stands p (ts ++ r :: rs) c)
    (he : e.elaborate true c = some (x, c')) (hr : r.kind = .comma ∨ r.kind = .rightParen)
    (hmax : read.length < maxArguments) (hn : 4 * ts.length + 2 ≤ n + 1) :
    ∃ q, Stands q (r :: rs) c' ∧ readArguments (n + 1) read p =
      if r.kind = .comma then readArguments n
      (x :: read) q.advance else ((x :: read).reverse, q) := by
  have hupto : r.kind.BindsUpto .assignment := by
    intro s hs
    rcases hr with hr | hr <;> rw [hr] at hs <;> simp [TokenKind.suffix?] at hs
  have heq : r.kind ≠ .equal := by rcases hr with hr | hr <;> simp [hr]
  obtain ⟨q, hread, hq, -⟩ := ih.value hd (n := n) hp he hupto heq (by omega)
  refine ⟨q, hq, ?_⟩
  rw [readArguments]
  simp only [hread, if_neg (Nat.ne_of_lt hmax), hq.at?, beq_iff_eq]

/-- The last argument of a call. -/
theorem Completes.last {ts : List Token} {e : Term} (hd : Derives ts (.expr .assignment e))
    (ih : Completes ts (.expr .assignment e)) : Completes ts (.arguments [e]) := by
  intro n read p c c' xs r rs hp he hr hmax hn
  obtain ⟨m, rfl⟩ : ∃ m, n = m + 1 := ⟨n - 1, by omega⟩
  simp only [Term.elaborateAll, Option.bind_eq_bind, Option.bind_eq_some_iff,
    Option.some.injEq] at he
  obtain ⟨⟨x, d⟩, hx, ⟨ys, d'⟩, hys, he⟩ := he
  obtain ⟨rfl, rfl⟩ := Prod.mk.inj hys
  obtain ⟨rfl, rfl⟩ := Prod.mk.inj (Option.some.inj he)
  obtain ⟨q, hq, hread⟩ := ih.argument hd read hp hx (.inr hr) hmax hn
  refine ⟨q, ?_, hq⟩
  rw [hread, if_neg (by simp [hr])]
  simp

/-- An argument that is followed by others. -/
theorem Completes.more {comma : Token} {ts us : List Token} {e : Term} {es : List Term}
    (hd : Derives ts (.expr .assignment e)) (ih : Completes ts (.expr .assignment e))
    (hcomma : comma.kind = .comma) (hds : Derives us (.arguments es))
    (ihs : Completes us (.arguments es)) :
    Completes (ts ++ comma :: us) (.arguments (e :: es)) := by
  intro n read p c c' xs r rs hp he hr hmax hn
  have hlen : (ts ++ comma :: us).length = ts.length + us.length + 1 := by
    simp
    omega
  rw [hlen] at hn
  obtain ⟨m, rfl⟩ : ∃ m, n = m + 1 := ⟨n - 1, by omega⟩
  simp only [Term.elaborateAll, Option.bind_eq_bind, Option.bind_eq_some_iff] at he
  obtain ⟨⟨x, d⟩, hx, ⟨ys, d'⟩, hys, he⟩ := he
  obtain ⟨rfl, rfl⟩ := Prod.mk.inj (Option.some.inj he)
  have hpos : 0 < ts.length := by
    obtain ⟨v, vs, rfl, -⟩ := hd.head
    simp
  obtain ⟨u, us', rfl, -⟩ := hds.head
  rw [List.length_cons] at hmax
  have hp' : Stands p (ts ++ comma :: u :: (us' ++ r :: rs)) c := by simpa using hp
  obtain ⟨q, hq, hread⟩ :=
    ih.argument hd (n := m) read hp' hx (.inl hcomma) (by omega) (by omega)
  have hqa : Stands q.advance (u :: us' ++ r :: rs) d := hq.advance
  obtain ⟨q', hread', hq'⟩ := ihs (n := m) (x :: read) hqa hys hr (by simp; omega) (by omega)
  refine ⟨q', ?_, hq'⟩
  rw [hread, if_pos hcomma, hread']
  simp

/-- Every phrase that the grammar derives is read. -/
theorem completes {ts : List Token} {φ : Phrase} (h : Derives ts φ) : Completes ts φ := by
  induction h with
  | nil hk | yes hk | no hk =>
    refine Completes.token rfl ?_
    intro n assignable p c c' x us hp ht he
    obtain ⟨rfl, rfl⟩ := Prod.mk.inj (Option.some.inj he)
    rw [readOperand, ht, hk, ParseState.line, ht, ← hp.context]
    rfl
  | number hk =>
    refine Completes.token rfl ?_
    intro n assignable p c c' x us hp ht he
    rw [Term.elaborate, ← hp.context, ← ht] at he
    rw [readOperand, ht, hk]
    simp only [readNumber_eq he]
    rfl
  | string hk =>
    refine Completes.token rfl ?_
    intro n assignable p c c' x us hp ht he
    simp only [Term.elaborate, Option.bind_eq_bind, Option.bind_eq_some_iff] at he
    obtain ⟨⟨i, d⟩, hi, he⟩ := he
    obtain ⟨rfl, rfl⟩ := Prod.mk.inj (Option.some.inj he)
    rw [← hp.context, ← ht] at hi
    rw [readOperand, ht, hk]
    simp only [readString, addLiteral_eq hi, line_withContext]
    rw [ParseState.line, ht]
    rfl
  | name hk => exact .name hk
  | group hlp hd hrp ih => exact .group hlp hd ih hrp
  | member hd hdot hm ih => exact .member hd ih hdot hm
  | call hd hlp hrp ih =>
    rename_i lp rp ts callee
    suffices h : Completes (ts ++ lp :: [] ++ [rp]) (.expr .call (.call callee [] rp.line)) by
      simpa using h
    refine Completes.callSuffix ih hlp hrp ?_
    intro n p c c' xs r rs hp hxs hmax hn
    obtain ⟨rfl, rfl⟩ := Prod.mk.inj (Option.some.inj hxs)
    refine ⟨p, ?_, hp⟩
    rw [if_pos (by rw [hp.at?, hrp]; rfl)]
  | callWith hd hlp hda hrp ih iha =>
    refine Completes.callSuffix ih hlp hrp ?_
    intro n p c c' xs r rs hp hxs hmax hn
    obtain ⟨q, hread, hq⟩ := iha [] hp hxs hrp (by simpa using hmax) hn
    refine ⟨q, ?_, hq⟩
    -- the first argument begins with something else than the closing parenthesis
    obtain ⟨u, us, rfl, hu⟩ := hda.head
    rw [if_neg]
    · simpa using hread
    · rw [List.cons_append] at hp
      rw [hp.at?, beq_iff_eq]
      intro hk
      rw [hk] at hu
      simp [TokenKind.startsTerm] at hu
  | unary hop hd ih => exact .unary hop hd ih
  | binary hdl hop hdr ihl ihr => exact .binary ihl hop hdr ihr
  | assign hx heq hd ih => exact .assign hx heq hd ih
  | assignMember hx hdot hm heq hd ih => exact .assignMember hx hdot hm heq hd ih
  | stronger hd ih => exact .stronger ih
  | last hd ih => exact .last hd ih
  | more hd hcomma hds ih ihs => exact .more hd ih hcomma hds ihs

end ParseState

end EntityScript
