/-
# Reading statements is complete

A statement that the grammar spells and the static rules allow is read without an error, to the tree
that the rules give.  An `else` may follow it only if it is closed.
-/
import EntityScript.Proofs.Compile.ExprCompleteness
import Mathlib.Data.Option.Basic

namespace EntityScript

namespace ParseState

/-- An expression is read up to the token that closes it. -/
theorem readExpr_spelled {ts : List Token} {e : Term}
    (hd : Derives ts (.expr .assignment e)) {n : Nat}
    {p : ParseState} {c c' : Context} {t : Expr} {r : Token} {rs : List Token}
    (hp : Stands p (ts ++ r :: rs) c) (he : e.elaborate true c = some (t, c'))
    (hr : r.kind = .semicolon ∨ r.kind = .rightParen) (hn : 4 * ts.length + 1 ≤ n) :
    ∃ q, p.readExpr n .assignment = (t, q) ∧ Stands q (r :: rs) c' ∧ q.line = e.lastLine := by
  have hupto : r.kind.BindsUpto .assignment := by
    intro s hs
    rcases hr with hr | hr <;> rw [hr] at hs <;> simp [TokenKind.suffix?] at hs
  have heq : r.kind ≠ .equal := by rcases hr with hr | hr <;> simp [hr]
  exact (completes hd).value hd hp he hupto heq hn

/-- An expression and the semicolon after it are read. -/
theorem readExpr_semicolon {ts : List Token} {e : Term}
    (hd : Derives ts (.expr .assignment e)) {n : Nat}
    {p : ParseState} {c c' : Context} {t : Expr} {semi r : Token} {rs : List Token} (what : String)
    (hp : Stands p (ts ++ semi :: r :: rs) c) (he : e.elaborate true c = some (t, c'))
    (hsemi : semi.kind = .semicolon) (hn : 4 * ts.length + 1 ≤ n) :
    ∃ q, p.readExpr n .assignment = (t, q) ∧ Stands (q.expect .semicolon what) (r :: rs) c' ∧
      (q.expect .semicolon what).line = semi.line := by
  obtain ⟨q, hread, hq, -⟩ := readExpr_spelled hd hp he (.inl hsemi) hn
  refine ⟨q, hread, ?_⟩
  rw [hq.expect hsemi]
  exact ⟨hq.advance, hq.line⟩

/-- A condition in its parentheses is read. -/
theorem readCondition_spelled {lp rp u : Token} {ts us : List Token} {e : Term} {n : Nat}
    (word : String) {p : ParseState} {c c' : Context} {t : Expr} (hlp : lp.kind = .leftParen)
    (hd : Derives ts (.expr .assignment e)) (hrp : rp.kind = .rightParen)
    (hp : Stands p (lp :: ts ++ rp :: u :: us) c) (he : e.elaborate true c = some (t, c'))
    (hn : 4 * ts.length + 1 ≤ n) :
    ∃ q, p.readCondition n word = (t, q) ∧ Stands q (u :: us) c' ∧ q.line = rp.line := by
  obtain ⟨v, vs, rfl, -⟩ := hd.head
  have hp' : Stands p (lp :: v :: (vs ++ rp :: u :: us)) c := by simpa using hp
  obtain ⟨q, hread, hq, -⟩ := readExpr_spelled hd (n := n) hp'.advance he (.inr hrp) hn
  refine ⟨q.advance, ?_, hq.advance, hq.line⟩
  unfold readCondition
  simp only [hp'.expect hlp, hread, hq.expect hrp]

/-- What the tokens of a statement, of a declaration or of a sequence of them do to the reader.  In
a sequence the reader goes on after the last of them, in a block as at the outside of all blocks. -/
def Fulfils (ts : List Token) : Sentence → Prop
  | .statement s => ∀ ⦃n : Nat⦄ ⦃p : ParseState⦄ ⦃c c' : Context⦄ ⦃t : Stmt⦄ ⦃r : Token⦄
      ⦃rs : List Token⦄, Stands p (ts ++ r :: rs) c → s.elaborate c = some (t, c') →
      (s.isOpen = true → r.kind ≠ .kwElse) → 4 * ts.length + 2 ≤ n →
      ∃ q, readStatement n p = (t, q) ∧ Stands q (r :: rs) c' ∧ q.line = s.lastLine
  | .declaration s => ∀ ⦃n : Nat⦄ ⦃p : ParseState⦄ ⦃c c' : Context⦄ ⦃t : Stmt⦄ ⦃r : Token⦄
      ⦃rs : List Token⦄, Stands p (ts ++ r :: rs) c → s.elaborate c = some (t, c') →
      (s.isOpen = true → r.kind ≠ .kwElse) → 4 * ts.length + 3 ≤ n →
      ∃ q, readDeclaration n p = (t, q) ∧ Stands q (r :: rs) c'
  | .sequence ss => ∀ ⦃n : Nat⦄ ⦃read b : Block⦄ ⦃p : ParseState⦄ ⦃c c' : Context⦄ ⦃r : Token⦄
      ⦃rs : List Token⦄, Stands p (ts ++ r :: rs) c → Clause.elaborateAll ss read c = some (b, c') →
      r.kind ≠ .kwElse → 4 * ts.length + 4 ≤ n →
      ∃ m q, n ≤ m + ts.length ∧ readBlock n read p = readBlock m b q ∧
        readScript n read p = readScript m b q ∧ Stands q (r :: rs) c'

namespace Fulfils

/-! ## Statements -/

/-- An expression statement is tried last, so its first token must not start anything else. -/
theorem expr {semi : Token} {ts : List Token} {e : Term} (hd : Derives ts (.expr .assignment e))
    (hsemi : semi.kind = .semicolon) :
    Fulfils (ts ++ [semi]) (.statement (.expr e semi.line)) := by
  intro n p c c' t r rs hp he hr hn
  rw [List.length_append, List.length_singleton] at hn
  obtain ⟨m, rfl⟩ : ∃ m, n = m + 1 := ⟨n - 1, by omega⟩
  simp only [Clause.elaborate, Option.bind_eq_bind, Option.bind_eq_some_iff] at he
  obtain ⟨⟨x, d⟩, hx, he⟩ := he
  obtain ⟨rfl, rfl⟩ := Prod.mk.inj (Option.some.inj he)
  have hp' : Stands p (ts ++ semi :: r :: rs) c := by simpa using hp
  obtain ⟨q, hread, hq, hline⟩ := readExpr_semicolon hd (n := m) "';' after expression" hp' hx hsemi
    (by omega)
  refine ⟨_, ?_, hq, hline⟩
  -- no statement but this one begins with an operand
  obtain ⟨u, us, rfl, hu⟩ := hd.head
  have hcur : p.current.kind.startsTerm = true := by
    rw [List.append_assoc, List.cons_append] at hp
    rw [hp.current]
    exact hu
  rw [readStatement]
  split
  · next hk => simp [hk, TokenKind.startsTerm] at hcur
  · next hk => simp [hk, TokenKind.startsTerm] at hcur
  · next hk => simp [hk, TokenKind.startsTerm] at hcur
  · next hk => simp [hk, TokenKind.startsTerm] at hcur
  · next hk => simp [hk, TokenKind.startsTerm] at hcur
  · next hk => simp [hk, TokenKind.startsTerm] at hcur
  · next hk => simp [hk, TokenKind.startsTerm] at hcur
  · simp only [hread, hline]

/-- A value to be printed. -/
theorem print {kw semi : Token} {ts : List Token} {e : Term} (hkw : kw.kind = .kwPrint)
    (hd : Derives ts (.expr .assignment e)) (hsemi : semi.kind = .semicolon) :
    Fulfils (kw :: ts ++ [semi]) (.statement (.print e semi.line)) := by
  intro n p c c' t r rs hp he hr hn
  rw [List.length_append, List.length_cons, List.length_singleton] at hn
  obtain ⟨m, rfl⟩ : ∃ m, n = m + 1 := ⟨n - 1, by omega⟩
  simp only [Clause.elaborate, Option.bind_eq_bind, Option.bind_eq_some_iff] at he
  obtain ⟨⟨x, d⟩, hx, he⟩ := he
  obtain ⟨rfl, rfl⟩ := Prod.mk.inj (Option.some.inj he)
  obtain ⟨u, us, rfl, -⟩ := hd.head
  have hp' : Stands p (kw :: u :: (us ++ semi :: r :: rs)) c := by simpa using hp
  obtain ⟨q, hread, hq, hline⟩ := readExpr_semicolon hd (n := m) "';' after value"
    hp'.advance hx hsemi (by omega)
  refine ⟨_, ?_, hq, hline⟩
  rw [readStatement, hp'.current, hkw]
  simp only [hread, hline]

/-- A return without a value, which is followed by its semicolon at once. -/
theorem ret {kw semi : Token} (hkw : kw.kind = .kwReturn) (hsemi : semi.kind = .semicolon) :
    Fulfils [kw, semi] (.statement (.ret none semi.line)) := by
  intro n p c c' t r rs hp he hr hn
  obtain ⟨m, rfl⟩ : ∃ m, n = m + 1 := ⟨n - 1, by simp at hn; omega⟩
  simp only [Clause.elaborate, Context.value?, Option.bind_eq_bind, Option.bind_some] at he
  obtain ⟨rfl, rfl⟩ := Prod.mk.inj (Option.some.inj he)
  have hp' : Stands p (kw :: semi :: r :: rs) c := hp
  refine ⟨p.advance.advance, ?_, hp'.advance.advance, hp'.advance.line⟩
  rw [readStatement, hp'.current, hkw]
  simp only [readReturn, hp'.advance.at?, hsemi, beq_self_eq_true, if_true, hp'.advance.line]

/-- A return with a value, whose first token is no semicolon. -/
theorem retWith {kw semi : Token} {ts : List Token} {e : Term} (hkw : kw.kind = .kwReturn)
    (hd : Derives ts (.expr .assignment e)) (hsemi : semi.kind = .semicolon) :
    Fulfils (kw :: ts ++ [semi]) (.statement (.ret (some e) semi.line)) := by
  intro n p c c' t r rs hp he hr hn
  rw [List.length_append, List.length_cons, List.length_singleton] at hn
  obtain ⟨m, rfl⟩ : ∃ m, n = m + 1 := ⟨n - 1, by omega⟩
  simp only [Clause.elaborate, Context.value?, Option.bind_eq_bind, Option.bind_eq_some_iff] at he
  obtain ⟨⟨x, d⟩, hx, he⟩ := he
  obtain ⟨rfl, rfl⟩ := Prod.mk.inj (Option.some.inj he)
  obtain ⟨u, us, rfl, hu⟩ := hd.head
  have hp' : Stands p (kw :: u :: (us ++ semi :: r :: rs)) c := by simpa using hp
  obtain ⟨q, hread, hq, hline⟩ := readExpr_semicolon hd (n := m) "';' after return value"
    hp'.advance hx hsemi (by omega)
  refine ⟨_, ?_, hq, hline⟩
  have hne : (u.kind == TokenKind.semicolon) = false := by
    cases hk : u.kind <;> simp [hk, TokenKind.startsTerm] at hu ⊢
  rw [readStatement, hp'.current, hkw]
  simp only [readReturn, hp'.advance.at?, hne, Bool.false_eq_true, if_false, hread, hline]

/-- A word with a semicolon. -/
theorem word {kw semi : Token} {s : Nat → Clause} {t : Nat → Stmt} (what : String)
    (he : ∀ c, (s semi.line).elaborate c = some (t semi.line, c))
    (hline : (s semi.line).lastLine = semi.line)
    (hread : ∀ n p, p.current.kind = kw.kind → readStatement (n + 1) p =
      (t (p.advance.expect .semicolon what).line, p.advance.expect .semicolon what))
    (hsemi : semi.kind = .semicolon) : Fulfils [kw, semi] (.statement (s semi.line)) := by
  intro n p c c' x r rs hp hx hr hn
  obtain ⟨m, rfl⟩ : ∃ m, n = m + 1 := ⟨n - 1, by simp at hn; omega⟩
  rw [he] at hx
  obtain ⟨rfl, rfl⟩ := Prod.mk.inj (Option.some.inj hx)
  have hp' : Stands p (kw :: semi :: r :: rs) c := hp
  refine ⟨p.advance.advance, ?_, hp'.advance.advance, by rw [hp'.advance.line, hline]⟩
  rw [hread m p (by rw [hp'.current]), hp'.advance.expect hsemi, hp'.advance.line]

/-- A conditional without an `else`: the token behind its body is none. -/
theorem ifThen {kw lp rp : Token} {ts us : List Token} {cond : Term} {body : Clause}
    (hkw : kw.kind = .kwIf) (hlp : lp.kind = .leftParen) (hd : Derives ts (.expr .assignment cond))
    (hrp : rp.kind = .rightParen) (hs : Spells us (.statement body))
    (ih : Fulfils us (.statement body)) :
    Fulfils (kw :: lp :: ts ++ rp :: us) (.statement (.ifThen cond rp.line body)) := by
  intro n p c c' t r rs hp he hr hn
  have hlen : (kw :: lp :: ts ++ rp :: us).length = ts.length + us.length + 3 := by
    simp
    omega
  rw [hlen] at hn
  obtain ⟨m, rfl⟩ : ∃ m, n = m + 2 := ⟨n - 2, by omega⟩
  simp only [Clause.elaborate, Option.bind_eq_bind, Option.bind_eq_some_iff,
    Option.guard_eq_some'] at he
  obtain ⟨⟨x, d⟩, hx, ⟨b, d'⟩, hb, -, hskip, he⟩ := he
  obtain ⟨rfl, rfl⟩ := Prod.mk.inj (Option.some.inj he)
  have hr' : r.kind ≠ .kwElse := hr rfl
  obtain ⟨u, us', rfl, -⟩ := hs.head_statement
  have hp' : Stands p (kw :: lp :: (ts ++ rp :: u :: (us' ++ r :: rs))) c := by simpa using hp
  obtain ⟨q, hread, hq, hline⟩ :=
    readCondition_spelled (n := m) "if" hlp hd hrp hp'.advance hx (by omega)
  obtain ⟨q', hread', hq', hline'⟩ := ih (n := m) hq hb (fun _ => hr') (by omega)
  have hjump : q'.checkJump (skipBody b) = q' := by
    unfold checkJump
    rw [skipBody_eq, if_neg (Nat.not_lt.mpr hskip)]
  have helse : (r.kind == TokenKind.kwElse) = false := by simpa using hr'
  refine ⟨q', ?_, hq', hline'⟩
  rw [readStatement, hp'.current, hkw]
  simp only [readIf, hread, hread', hjump, hq'.at?, helse, Bool.false_eq_true, if_false,
    hline, hline']

/-- A conditional with both branches.  The first of them is closed, so the `else` is not taken by a
conditional in it. -/
theorem ifElse {kw lp rp el : Token} {ts us vs : List Token} {cond : Term} {body other : Clause}
    (hkw : kw.kind = .kwIf) (hlp : lp.kind = .leftParen) (hd : Derives ts (.expr .assignment cond))
    (hrp : rp.kind = .rightParen) (hs : Spells us (.statement body))
    (ih : Fulfils us (.statement body)) (hopen : body.isOpen = false) (hel : el.kind = .kwElse)
    (hs' : Spells vs (.statement other)) (ih' : Fulfils vs (.statement other)) :
    Fulfils (kw :: lp :: ts ++ rp :: us ++ el :: vs)
      (.statement (.ifElse cond rp.line body other)) := by
  intro n p c c' t r rs hp he hr hn
  have hlen : (kw :: lp :: ts ++ rp :: us ++ el :: vs).length =
      ts.length + us.length + vs.length + 4 := by
    simp
    omega
  rw [hlen] at hn
  obtain ⟨m, rfl⟩ : ∃ m, n = m + 2 := ⟨n - 2, by omega⟩
  simp only [Clause.elaborate, Option.bind_eq_bind, Option.bind_eq_some_iff,
    Option.guard_eq_some'] at he
  obtain ⟨⟨x, d⟩, hx, ⟨b, d'⟩, hb, -, hskip, ⟨o, d''⟩, ho, -, hskip', he⟩ := he
  obtain ⟨rfl, rfl⟩ := Prod.mk.inj (Option.some.inj he)
  obtain ⟨u, us', rfl, -⟩ := hs.head_statement
  obtain ⟨v, vs', rfl, -⟩ := hs'.head_statement
  have hp' : Stands p (kw :: lp :: (ts ++ rp :: u :: (us' ++ el :: v :: (vs' ++ r :: rs)))) c := by
    simpa using hp
  obtain ⟨q, hread, hq, hline⟩ :=
    readCondition_spelled (n := m) "if" hlp hd hrp hp'.advance hx (by omega)
  obtain ⟨q', hread', hq', hline'⟩ := ih (n := m) hq hb (fun h => by simp [hopen] at h) (by omega)
  have hjump : q'.checkJump (skipBody b) = q' := by
    unfold checkJump
    rw [skipBody_eq, if_neg (Nat.not_lt.mpr hskip)]
  obtain ⟨q'', hread'', hq'', hline''⟩ := ih' (n := m) hq'.advance ho hr (by omega)
  have hjump' : q''.checkJump (skipOther o) = q'' := by
    unfold checkJump
    rw [skipOther_eq, if_neg (Nat.not_lt.mpr hskip')]
  refine ⟨q'', ?_, hq'', hline''⟩
  rw [readStatement, hp'.current, hkw]
  simp only [readIf, hread, hread', hjump, hq'.at?, hel, beq_self_eq_true, if_true, hread'', hjump',
    hline, hline']

/-- A loop, which starts again in front of its condition. -/
theorem loop {kw lp rp : Token} {ts us : List Token} {cond : Term} {body : Clause}
    (hkw : kw.kind = .kwWhile) (hlp : lp.kind = .leftParen)
    (hd : Derives ts (.expr .assignment cond)) (hrp : rp.kind = .rightParen)
    (hs : Spells us (.statement body)) (ih : Fulfils us (.statement body)) :
    Fulfils (kw :: lp :: ts ++ rp :: us) (.statement (.loop cond rp.line body)) := by
  intro n p c c' t r rs hp he hr hn
  have hlen : (kw :: lp :: ts ++ rp :: us).length = ts.length + us.length + 3 := by
    simp
    omega
  rw [hlen] at hn
  obtain ⟨m, rfl⟩ : ∃ m, n = m + 2 := ⟨n - 2, by omega⟩
  simp only [Clause.elaborate, Option.bind_eq_bind, Option.bind_eq_some_iff,
    Option.guard_eq_some'] at he
  obtain ⟨⟨x, d⟩, hx, ⟨b, d'⟩, hb, -, hback, he⟩ := he
  obtain ⟨rfl, rfl⟩ := Prod.mk.inj (Option.some.inj he)
  obtain ⟨u, us', rfl, -⟩ := hs.head_statement
  have hp' : Stands p (kw :: lp :: (ts ++ rp :: u :: (us' ++ r :: rs))) c := by simpa using hp
  obtain ⟨q, hread, hq, hline⟩ :=
    readCondition_spelled (n := m) "while" hlp hd hrp hp'.advance hx (by omega)
  obtain ⟨q', hread', hq', hline'⟩ := ih (n := m) hq hb hr (by omega)
  have hskip : b.postorder.length + 2 ≤ maxOffset := by
    simp only at hback
    omega
  have hloop : (q'.checkLoop (loopBack x b)).checkJump (skipBody b) = q' := by
    unfold checkLoop checkJump
    rw [loopBack_eq, skipBody_eq, if_neg (Nat.not_lt.mpr hback), if_neg (Nat.not_lt.mpr hskip)]
  refine ⟨q', ?_, hq', hline'⟩
  rw [readStatement, hp'.current, hkw]
  simp only [readWhile, hread, hread', hloop, hline, hline']

/-- A sequence and the brace that closes it are read. -/
theorem readBlock {ts : List Token} {ss : List Clause} (ih : Fulfils ts (.sequence ss)) {n : Nat}
    {read b : Block} {p : ParseState} {c c' : Context} {rb r : Token} {rs : List Token}
    (hp : Stands p (ts ++ rb :: r :: rs) c) (he : Clause.elaborateAll ss read c = some (b, c'))
    (hrb : rb.kind = .rightBrace) (hn : 4 * ts.length + 4 ≤ n) :
    ∃ q, ParseState.readBlock n read p = (b, q) ∧ Stands q (r :: rs) c' ∧ q.line = rb.line := by
  obtain ⟨m, q, hm, hread, -, hq⟩ := ih hp he (by simp [hrb]) hn
  obtain ⟨k, rfl⟩ : ∃ k, m = k + 1 := ⟨m - 1, by omega⟩
  refine ⟨q.advance, ?_, hq.advance, hq.line⟩
  rw [hread, ParseState.readBlock, if_pos (by rw [hq.at?, hrb]; rfl), hq.expect hrb]

/-- A block, in a scope of its own. -/
theorem block {lb rb : Token} {ts : List Token} {ss : List Clause} (hlb : lb.kind = .leftBrace)
    (ih : Fulfils ts (.sequence ss)) (hrb : rb.kind = .rightBrace) :
    Fulfils (lb :: ts ++ [rb]) (.statement (.block ss rb.line)) := by
  intro n p c c' t r rs hp he hr hn
  rw [List.length_append, List.length_cons, List.length_singleton] at hn
  obtain ⟨m, rfl⟩ : ∃ m, n = m + 1 := ⟨n - 1, by omega⟩
  simp only [Clause.elaborate, Option.bind_eq_bind, Option.bind_eq_some_iff] at he
  obtain ⟨⟨b, d⟩, hb, he⟩ := he
  obtain ⟨rfl, rfl⟩ := Prod.mk.inj (Option.some.inj he)
  have hp' : Stands p (lb :: (ts ++ rb :: r :: rs)) c := by simpa using hp
  have ha : Stands p.advance (ts ++ rb :: r :: rs) c := by
    cases ts with
    | nil => exact hp'.advance
    | cons u us => exact hp'.advance
  obtain ⟨q, hread, hq, hline⟩ := ih.readBlock (n := m) (ha.withContext c.enter) hb hrb (by omega)
  have henter : p.advance.enter = p.advance.withContext c.enter := by
    rw [← ha.context]
    rfl
  have hleave : q.leave = (d.scope.leave.1, q.withContext d.leave) := by
    rw [← hq.context]
    rfl
  refine ⟨q.withContext d.leave, ?_, hq.withContext d.leave, hline⟩
  rw [readStatement, hp'.current, hlb]
  simp only [henter, hread, hleave, line_withContext, hline]

/-! ## Declarations -/

/-- A reading without an error needs no recovery. -/
theorem readDeclaration_calm {n : Nat} {p q : ParseState} {c : Context} {ts : List Token} {t : Stmt}
    (hread : (if p.at? .kwFun then readFunction n p.advance
      else if p.at? .kwLet then p.advance.readLet n else readStatement n p) = (t, q))
    (hq : Stands q ts c) : readDeclaration (n + 1) p = (t, q) := by
  rw [readDeclaration]
  simp only [hread, hq.calm, Bool.false_eq_true, if_false]

/-- A statement among declarations starts with none of their keywords. -/
theorem ofStatement {ts : List Token} {s : Clause} (hs : Spells ts (.statement s))
    (ih : Fulfils ts (.statement s)) : Fulfils ts (.declaration s) := by
  intro n p c c' t r rs hp he hr hn
  obtain ⟨m, rfl⟩ : ∃ m, n = m + 1 := ⟨n - 1, by omega⟩
  obtain ⟨q, hread, hq, -⟩ := ih (n := m) hp he hr (by omega)
  refine ⟨q, readDeclaration_calm ?_ hq, hq⟩
  -- the first word is neither `fun` nor `let`
  obtain ⟨u, us, rfl, hu⟩ := hs.head_statement
  rw [List.cons_append] at hp
  have hfun : (u.kind == TokenKind.kwFun) = false := by
    cases hk : u.kind <;> simp [hk, TokenKind.startsClause, TokenKind.startsTerm] at hu ⊢
  have hlet : (u.kind == TokenKind.kwLet) = false := by
    cases hk : u.kind <;> simp [hk, TokenKind.startsClause, TokenKind.startsTerm] at hu ⊢
  simp only [hp.at?, hfun, hlet, Bool.false_eq_true, if_false, hread]

/-- A variable is declared, with a first value or without. -/
theorem declareVariable {kw x semi : Token} {ts : List Token} {init : Option Term}
    (hkw : kw.kind = .kwLet) (hx : x.kind = .identifier) (hsemi : semi.kind = .semicolon)
    (hinit : ∀ ⦃n : Nat⦄ ⦃p : ParseState⦄ ⦃c c' : Context⦄ ⦃t : Expr⦄ ⦃r : Token⦄ ⦃rs : List Token⦄,
      Stands p (ts ++ semi :: r :: rs) c → p.line = x.line → c.value? x.line init = some (t, c') →
      4 * ts.length + 1 ≤ n →
      ∃ q, (if p.at? .equal then p.advance.readExpr n .assignment else (.nil p.line, p)) = (t, q) ∧
        Stands q (semi :: r :: rs) c') :
    Fulfils (kw :: x :: ts ++ [semi]) (.declaration (.declare x.text x.line init semi.line)) := by
  intro n p c c' t r rs hp he hr hn
  have hlen : (kw :: x :: ts ++ [semi]).length = ts.length + 3 := by simp
  rw [hlen] at hn
  obtain ⟨m, rfl⟩ : ∃ m, n = m + 1 := ⟨n - 1, by omega⟩
  simp only [Clause.elaborate, Option.bind_eq_bind, Option.bind_eq_some_iff] at he
  obtain ⟨d, hd, ⟨y, d'⟩, hy, ⟨v, d''⟩, hv, he⟩ := he
  obtain ⟨rfl, rfl⟩ := Prod.mk.inj (Option.some.inj he)
  have hp' : Stands p (kw :: x :: (ts ++ semi :: r :: rs)) c := by simpa using hp
  have ha : Stands p.advance.advance (ts ++ semi :: r :: rs) c := by
    cases ts with
    | nil => exact hp'.advance.advance
    | cons u us => exact hp'.advance.advance
  have hdecl : p.advance.advance.declare x.text = p.advance.advance.withContext d :=
    declare_eq (by rw [ha.context]; exact hd)
  obtain ⟨q, hread, hq⟩ := hinit (n := m) (ha.withContext d) hp'.advance.line hy (by omega)
  have hdef : q.advance.define x.text = (v, q.advance.withContext d'') :=
    define_eq (by rw [hq.advance.context]; exact hv)
  refine ⟨q.advance.withContext d'', readDeclaration_calm ?_ (hq.advance.withContext d''),
    hq.advance.withContext d''⟩
  have hfun : (kw.kind == TokenKind.kwFun) = false := by simp [hkw]
  have hlet : (kw.kind == TokenKind.kwLet) = true := by simp [hkw]
  simp only [hp'.at?, hfun, hlet, Bool.false_eq_true, if_false, if_true, readLet,
    hp'.advance.expect hx, hp'.advance.previous, hdecl, hread, hq.expect hsemi, hdef, hq.line]

/-- The parameters of a function are read, after those in `read`. -/
theorem readParameters {ts : List Token} {xs : List String} (h : Parameters ts xs) {n : Nat}
    (read : List String) {p : ParseState} {c c' : Context} {r : Token} {rs : List Token}
    (hp : Stands p (ts ++ r :: rs) c) (he : Context.declareAll? xs c = some c')
    (hr : r.kind = .rightParen) (hmax : read.length + xs.length ≤ maxArguments)
    (hn : ts.length ≤ n) :
    ∃ q, p.readParameters n read = (read.reverse ++ xs, q) ∧ Stands q (r :: rs) c' := by
  induction h generalizing n read p c with
  | @last x hx =>
    obtain ⟨m, rfl⟩ : ∃ m, n = m + 1 := ⟨n - 1, by simp at hn; omega⟩
    have hp' : Stands p (x :: r :: rs) c := hp
    simp only [Context.declareAll?, Option.bind_eq_some_iff, Option.some.injEq] at he
    obtain ⟨d, hd, rfl⟩ := he
    have hdecl : (p.advance.declare x.text).settle = p.advance.withContext d :=
      declareSettled_eq (by rw [hp'.advance.context]; exact hd)
    have hw := hp'.advance.withContext d
    refine ⟨p.advance.withContext d, ?_, hw⟩
    have hroom : read.length ≠ maxArguments := by
      rw [List.length_singleton] at hmax
      omega
    -- the parenthesis is no comma, so the parameters end here
    have hcomma : (r.kind == TokenKind.comma) = false := by simp [hr]
    simp only [ParseState.readParameters, if_neg hroom, hp'.expect hx, hp'.previous, hdecl, hw.at?,
      hcomma, Bool.false_eq_true, if_false, List.reverse_cons]
  | @more x comma ts xs hx hcomma htail ih =>
    obtain ⟨m, rfl⟩ : ∃ m, n = m + 1 := ⟨n - 1, by simp at hn; omega⟩
    -- behind a comma there is another parameter
    obtain ⟨u, us, rfl⟩ : ∃ u us, ts = u :: us := by
      cases htail with
      | last | more => exact ⟨_, _, rfl⟩
    have hp' : Stands p (x :: comma :: u :: (us ++ r :: rs)) c := hp
    simp only [Context.declareAll?, Option.bind_eq_some_iff] at he
    obtain ⟨d, hd, he⟩ := he
    have hdecl : (p.advance.declare x.text).settle = p.advance.withContext d :=
      declareSettled_eq (by rw [hp'.advance.context]; exact hd)
    have hw := hp'.advance.withContext d
    rw [List.length_cons] at hmax
    obtain ⟨q, hread, hq⟩ := ih (n := m) (x.text :: read) hw.advance he
      (by rw [List.length_cons]; omega) (by simp at hn ⊢; omega)
    refine ⟨q, ?_, hq⟩
    have hroom : read.length ≠ maxArguments := by omega
    have hcomma' : (comma.kind == TokenKind.comma) = true := by simp [hcomma]
    simp only [ParseState.readParameters, if_neg hroom, hp'.expect hx, hp'.previous, hdecl, hw.at?,
      hcomma', if_true, hread, List.reverse_cons, List.append_assoc, List.singleton_append]

/-- A function is declared, with parameters or without. -/
theorem declareFunction {kw x lp rp lb rb : Token} {us ts : List Token} {xs : List String}
    {ss : List Clause} (site : Nat) (hkw : kw.kind = .kwFun) (hx : x.kind = .identifier)
    (hlp : lp.kind = .leftParen)
    (hsig : ∀ ⦃n : Nat⦄ ⦃p : ParseState⦄ ⦃c c' : Context⦄ ⦃r : Token⦄ ⦃rs : List Token⦄,
      Stands p (us ++ rp :: r :: rs) c → Context.declareAll? xs c = some c' →
      xs.length ≤ maxArguments → us.length ≤ n →
      ∃ q, (if p.at? .rightParen then ([], p) else p.readParameters n []) = (xs, q) ∧
        Stands q (rp :: r :: rs) c')
    (hrp : rp.kind = .rightParen) (hlb : lb.kind = .leftBrace) (ih : Fulfils ts (.sequence ss))
    (hrb : rb.kind = .rightBrace) :
    Fulfils (kw :: x :: lp :: us ++ rp :: lb :: ts ++ [rb])
      (.declaration (.function site x.text xs ss rb.line)) := by
  intro n p c c' t r rs hp he hr hn
  have hlen : (kw :: x :: lp :: us ++ rp :: lb :: ts ++ [rb]).length =
    us.length + ts.length + 6 := by
    simp
    omega
  rw [hlen] at hn
  obtain ⟨m, rfl⟩ : ∃ m, n = m + 2 := ⟨n - 2, by omega⟩
  simp only [Clause.elaborate, Option.bind_eq_bind, Option.bind_eq_some_iff,
    Option.guard_eq_some'] at he
  obtain ⟨outer, ho, -, hmax, inner, hin, ⟨b, d⟩, hb, -, rfl, ⟨index, d'⟩, hclose, ⟨v, d''⟩,
    hv, he⟩ := he
  obtain ⟨rfl, rfl⟩ := Prod.mk.inj (Option.some.inj he)
  have hp' : Stands p (kw :: x :: lp :: (us ++ rp :: lb :: (ts ++ rb :: r :: rs))) c := by
    simpa using hp
  have h₁ := hp'.advance.advance
  -- the name
  have houter : (if p.advance.advance.scope.depth = 0 then p.advance.advance.addGlobal x.text
      else (p.advance.advance.declare x.text).settle) = p.advance.advance.withContext outer := by
    have ho' : p.advance.advance.context.declareFunction? x.text = some outer := by
      rw [h₁.context]
      exact ho
    unfold Context.declareFunction? at ho'
    by_cases hdep : p.advance.advance.scope.depth = 0
    · have hdep' : p.advance.advance.context.scope.depth = 0 := hdep
      rw [if_pos hdep'] at ho'
      rw [if_pos hdep, ← Option.some.inj ho']
      rfl
    · have hdep' : ¬ p.advance.advance.context.scope.depth = 0 := hdep
      rw [if_neg hdep'] at ho'
      rw [if_neg hdep]
      exact declareSettled_eq ho'
  have hopen : (p.advance.advance.withContext outer).openFunction =
      p.advance.advance.withContext outer.openFunction := rfl
  have h₂ := h₁.withContext outer.openFunction
  -- the parameters
  obtain ⟨u, us', hu⟩ : ∃ u us', us ++ rp :: lb :: (ts ++ rb :: r :: rs) = u :: us' := by
    cases us with
    | nil => exact ⟨_, _, rfl⟩
    | cons v vs => exact ⟨_, _, rfl⟩
  have h₃ : Stands (p.advance.advance.withContext outer.openFunction).advance
      (us ++ rp :: lb :: (ts ++ rb :: r :: rs)) outer.openFunction := by
    rw [hu] at h₂ ⊢
    exact h₂.advance
  obtain ⟨q, hread, hq⟩ := hsig (n := m) h₃ hin hmax (by omega)
  -- the body
  have hq' := hq.advance
  have hq'' : Stands q.advance.advance (ts ++ rb :: r :: rs) inner := by
    cases ts with
    | nil => exact hq'.advance
    | cons v vs => exact hq'.advance
  obtain ⟨q₇, hread₇, hq₇, hline₇⟩ := ih.readBlock (n := m) hq'' hb hrb (by omega)
  have hclose' : q₇.closeFunction (p.advance.advance.withContext outer) x.text xs.length b =
      (index, q₇.withContext d') := by
    unfold closeFunction
    have hctx := hq₇.context
    subst hctx
    rw [hline₇, Function.assemble_eq]
    exact addLiteral_eq hclose
  have hdef : (q₇.withContext d').define x.text = (v, q₇.withContext d'') := by
    have := define_eq (p := q₇.withContext d') (by rw [context_withContext]; exact hv)
    rw [this, withContext_withContext]
  refine ⟨q₇.withContext d'', readDeclaration_calm ?_ (hq₇.withContext d''), hq₇.withContext d''⟩
  have hfun : (kw.kind == TokenKind.kwFun) = true := by simp [hkw]
  simp only [hp'.at?, hfun, if_true, readFunction, hp'.advance.expect hx,
    hp'.advance.previous, houter, hopen, h₂.expect hlp, hread, hq.expect hrp, hq'.expect hlb,
    hread₇, hclose', hdef, hline₇]

/-! ## Sequences -/

/-- No declarations are read at the end, or at a closing brace. -/
theorem none : Fulfils [] (.sequence []) := by
  intro n read b p c c' r rs hp he hr hn
  obtain ⟨rfl, rfl⟩ := Prod.mk.inj (Option.some.inj he)
  exact ⟨n, p, Nat.le_refl _, rfl, rfl, hp⟩

/-- A declaration is read before the others, from a token that does not close the sequence. -/
theorem more {ts us : List Token} {s : Clause} {ss : List Clause} (hs : Spells ts (.declaration s))
    (ih : Fulfils ts (.declaration s)) (hss : Spells us (.sequence ss))
    (ihs : Fulfils us (.sequence ss)) : Fulfils (ts ++ us) (.sequence (s :: ss)) := by
  intro n read b p c c' r rs hp he hr hn
  rw [List.length_append] at hn ⊢
  obtain ⟨m, rfl⟩ : ∃ m, n = m + 1 := ⟨n - 1, by omega⟩
  simp only [Clause.elaborateAll, Option.bind_eq_bind, Option.bind_eq_some_iff] at he
  obtain ⟨⟨t, d⟩, ht, he⟩ := he
  rw [List.append_assoc] at hp
  obtain ⟨u, ts', rfl, hu⟩ := hs.head_declaration
  -- what comes next is no `else`
  obtain ⟨v, vs, hv, hvk⟩ : ∃ v vs, us ++ r :: rs = v :: vs ∧ v.kind ≠ .kwElse := by
    cases hss with
    | none => exact ⟨r, rs, rfl, hr⟩
    | more hs' _ =>
      obtain ⟨v, vs, rfl, hvk⟩ := hs'.head_declaration
      refine ⟨v, _, rfl, ?_⟩
      intro hk
      rw [hk] at hvk
      simp [TokenKind.startsDeclaration, TokenKind.startsClause, TokenKind.startsTerm] at hvk
  rw [hv] at hp
  obtain ⟨q, hread, hq⟩ := ih (n := m) hp ht (fun _ => hvk)
    (by omega)
  rw [List.length_cons] at hn ⊢
  obtain ⟨k, q', hk, hblock, hscript, hq'⟩ := ihs (n := m) (by rw [hv]; exact hq) he hr (by omega)
  have hrb : (u.kind == TokenKind.rightBrace) = false := by
    cases hk : u.kind <;>
      simp [hk, TokenKind.startsDeclaration, TokenKind.startsClause, TokenKind.startsTerm] at hu ⊢
  have heof : (u.kind == TokenKind.eof) = false := by
    cases hk : u.kind <;>
      simp [hk, TokenKind.startsDeclaration, TokenKind.startsClause, TokenKind.startsTerm] at hu ⊢
  rw [List.cons_append] at hp
  refine ⟨k, q', by omega, ?_, ?_, hq'⟩
  · rw [ParseState.readBlock]
    simp only [hp.at?, hrb, heof, Bool.or_self, Bool.false_eq_true, if_false, hread, hblock]
  · rw [readScript]
    simp only [hp.at?, heof, Bool.false_eq_true, if_false, hread, hscript]

end Fulfils

/-- Every sentence that the grammar spells is read. -/
theorem fulfils {ts : List Token} {σ : Sentence} (h : Spells ts σ) : Fulfils ts σ := by
  induction h with
  | expr hd hsemi => exact .expr hd hsemi
  | print hkw hd hsemi => exact .print hkw hd hsemi
  | ifThen hkw hlp hd hrp hs ih => exact .ifThen hkw hlp hd hrp hs ih
  | ifElse hkw hlp hd hrp hs hopen hel hs' ih ih' =>
    exact .ifElse hkw hlp hd hrp hs ih hopen hel hs' ih'
  | loop hkw hlp hd hrp hs ih => exact .loop hkw hlp hd hrp hs ih
  | ret hkw hsemi => exact .ret hkw hsemi
  | retWith hkw hd hsemi => exact .retWith hkw hd hsemi
  | yield hkw hsemi =>
    refine Fulfils.word (s := .yield) (t := .yield) "';' after 'yield'" (fun _ => rfl) rfl
      (fun n p hk => ?_) hsemi
    rw [readStatement, hk, hkw]
  | stop hkw hsemi =>
    refine Fulfils.word (s := .stop) (t := .stop) "';' after 'end'" (fun _ => rfl) rfl
      (fun n p hk => ?_) hsemi
    rw [readStatement, hk, hkw]
  | block hlb _ hrb ih => exact .block hlb ih hrb
  | ofStatement hs ih => exact .ofStatement hs ih
  | declare hkw hx hsemi =>
    rename_i kw x semi
    show Fulfils (kw :: x :: [] ++ [semi]) _
    refine Fulfils.declareVariable hkw hx hsemi ?_
    intro n p c c' t r rs hp hline he hn
    obtain ⟨rfl, rfl⟩ := Prod.mk.inj (Option.some.inj he)
    have hp' : Stands p (_ :: r :: rs) c := hp
    refine ⟨p, ?_, hp⟩
    rw [if_neg (by rw [hp'.at?, hsemi]; simp), hline]
  | declareWith hkw hx heq hd hsemi =>
    refine Fulfils.declareVariable hkw hx hsemi ?_
    intro n p c c' t r rs hp hline he hn
    obtain ⟨u, us, rfl, -⟩ := hd.head
    simp only [List.cons_append] at hp
    rw [List.length_cons] at hn
    obtain ⟨q, hread, hq, -⟩ := readExpr_spelled hd (n := n) hp.advance he (.inl hsemi) (by omega)
    refine ⟨q, ?_, hq⟩
    rw [if_pos (by rw [hp.at?, heq]; rfl), hread]
  | function site hkw hx hlp hrp hlb _ hrb ih =>
    rename_i kw x lp rp lb rb ts ss _
    show Fulfils (kw :: x :: lp :: [] ++ rp :: lb :: ts ++ [rb]) _
    refine Fulfils.declareFunction site hkw hx hlp ?_ hrp hlb ih hrb
    intro n p c c' r rs hp he _ _
    have hp' : Stands p (_ :: r :: rs) c := hp
    refine ⟨p, ?_, Option.some.inj he ▸ hp⟩
    rw [if_pos (by rw [hp'.at?, hrp]; rfl)]
  | functionWith site hkw hx hlp hpar hrp hlb _ hrb ih =>
    refine Fulfils.declareFunction site hkw hx hlp ?_ hrp hlb ih hrb
    intro n p c c' r rs hp he hmax hn
    obtain ⟨q, hread, hq⟩ := Fulfils.readParameters hpar [] hp he hrp (by simpa using hmax) hn
    refine ⟨q, ?_, hq⟩
    -- the first parameter is something else than the closing parenthesis
    have hat : p.at? .rightParen = false := by
      cases hpar with
      | last hk | more hk =>
        simp only [List.cons_append] at hp
        rw [hp.at?, hk]
        rfl
    rw [if_neg (by simp [hat])]
    simpa using hread
  | none => exact .none
  | more hs hss ih ihs => exact .more hs ih hss ihs

end ParseState

end EntityScript
