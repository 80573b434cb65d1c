/-
# Reading statements is sound

A statement that is read without an error is spelled by the tokens that were taken, and the tree
that was built is the one the static rules give.  A statement that an `else` could continue is not
followed by one: the reader takes every `else` that it meets, which is why an `else` belongs to the
nearest `if`.
-/
import EntityScript.Proofs.Compile.ExprSoundness

namespace EntityScript

namespace ParseState

theorem Ready.advance {p : ParseState} (h : Ready p) (hk : p.current.kind ≠ .eof)
    (hc : p.advance.diagnostics = []) : Takes p p.advance ∧ Ready p.advance := by
  have ht := takes_advance h.sane h.orderly hk hc
  exact ⟨ht, h.take (keeps_advance p) ht hk⟩

/-- A token that was expected without an error has been taken. -/
theorem Ready.expect {p : ParseState} {kind : TokenKind} {what : String} (h : Ready p)
    (hk : kind ≠ .eof) (hc : (p.expect kind what).diagnostics = []) :
    p.current.kind = kind ∧ Takes p (p.expect kind what) ∧ Ready (p.expect kind what) := by
  obtain ⟨hcur, ht⟩ := takes_expect h.sane h.orderly hk hc
  exact ⟨hcur, ht, h.take (keeps_expect p kind what) ht (hcur ▸ hk)⟩

theorem Ready.withContext {p : ParseState} (h : Ready p) (c : Context) : Ready (p.withContext c) :=
  ⟨(keeps_withContext p c).sane h.sane, h.orderly⟩

theorem Takes.length {p q : ParseState} (h : Takes p q) :
    p.stream.length = q.stream.length + 1 := by
  rw [h.stream, List.length_cons]

/-- An expression that may be an assignment has been read. -/
theorem readExpr_clean {n : Nat} {p q : ParseState} {t : Expr} (hp : Ready p)
    (hn : 4 * p.stream.length + 1 ≤ n) (h : readExpr n .assignment p = (t, q))
    (hc : q.diagnostics = []) :
    ∃ e ts, p.stream = ts ++ q.stream ∧ Derives ts (.expr .assignment e) ∧
      e.elaborate true p.context = some (t, q.context) ∧ q.line = e.lastLine ∧ Ready q := by
  have hk : Keeps p q := (keeps_readExpr n .assignment p).result h
  obtain ⟨e, ⟨⟨ts, hts, hd⟩, hres, hline⟩, -⟩ :=
    (exprSound n).expr hp (by simp [Precedence.rank]) hn h hc
  refine ⟨e, ts, hts, hd, ?_, hline, hp.skip hk hts⟩
  simpa [Precedence.rank] using hres

/-! ## Parts of statements -/

/-- A condition in parentheses has been read. -/
theorem readCondition_clean {n : Nat} {word : String} {p q : ParseState} {t : Expr} (hp : Ready p)
    (hn : 4 * p.stream.length + 1 ≤ n) (h : p.readCondition n word = (t, q))
    (hc : q.diagnostics = []) :
    ∃ e lp rp ts, p.stream = lp :: ts ++ rp :: q.stream ∧ lp.kind = .leftParen ∧
      Derives ts (.expr .assignment e) ∧ rp.kind = .rightParen ∧
      e.elaborate true p.context = some (t, q.context) ∧ q.line = rp.line ∧ Ready q := by
  unfold readCondition at h
  simp only at h
  rcases hx : (p.expect .leftParen ("'(' after '" ++ word ++ "'")).readExpr n
    .assignment with ⟨t₁, r⟩
  rw [hx] at h
  obtain ⟨rfl, rfl⟩ := Prod.mk.inj h
  have hcr : r.diagnostics = [] := (keeps_expect r _ _).clean hc
  have hce := ((keeps_readExpr n .assignment _).result hx).clean hcr
  obtain ⟨hlp, htl, hl⟩ := hp.expect (by simp) hce
  have hlen := htl.length
  obtain ⟨e, ts, hts, hd, hres, -, hr⟩ := readExpr_clean hl (by omega) hx hcr
  obtain ⟨hrp, htr, hq⟩ := hr.expect (by simp) hc
  refine ⟨e, p.current, r.current, ts, ?_, hlp, hd, hrp, ?_, htr.line, hq⟩
  · rw [htl.stream, hts, htr.stream, List.cons_append]
  · rw [htr.context, ← htl.context]
    exact hres

/-- What has been read between two states: a statement or a declaration, as `kind` says. -/
structure ReadsClause (kind : Clause → Sentence) (p q : ParseState) (s : Clause) (t : Stmt) :
    Prop where
  spelled : ∃ ts, p.stream = ts ++ q.stream ∧ Spells ts (kind s)
  resolved : s.elaborate p.context = some (t, q.context)
  line : q.line = s.lastLine
  closed : s.isOpen = true → q.current.kind ≠ .kwElse

/-- A statement may stand where a declaration may. -/
theorem ReadsClause.declaration {p q : ParseState} {s : Clause} {t : Stmt}
    (h : ReadsClause .statement p q s t) : ReadsClause .declaration p q s t := by
  obtain ⟨⟨ts, hts, hd⟩, hres, hline, hclosed⟩ := h
  exact ⟨⟨ts, hts, .ofStatement hd⟩, hres, hline, hclosed⟩

/-- A declaration without an error is one that the rules allow. -/
theorem declare_clean {p : ParseState} {x : String} (hs : p.Sane)
    (hc : (p.declare x).diagnostics = []) :
    ∃ c, p.context.declare? x = some c ∧ p.declare x = p.withContext c := by
  cases h : p.context.declare? x with
  | none => exact absurd hc (declare_failed hs h)
  | some c => exact ⟨c, rfl, declare_eq h⟩

/-- A declaration without an error is one that the static rules allow. -/
theorem declareSettled_clean {p : ParseState} {x : String} (hs : p.Sane)
    (hc : (p.declare x).settle.diagnostics = []) :
    ∃ c, p.context.declareSettled? x = some c ∧ (p.declare x).settle = p.withContext c := by
  cases h : p.context.declareSettled? x with
  | none => exact absurd hc (declareSettled_failed hs h)
  | some c => exact ⟨c, rfl, declareSettled_eq h⟩

theorem define_clean {p q : ParseState} {x : String} {v : Variable} (hs : p.Sane)
    (h : p.define x = (v, q)) (hc : q.diagnostics = []) :
    ∃ c, p.context.define? x = some (v, c) ∧ q = p.withContext c := by
  cases hd : p.context.define? x with
  | none =>
    have hf := define_failed hs hd
    rw [h] at hf
    exact absurd hc hf
  | some r =>
    obtain ⟨w, c⟩ := r
    rw [define_eq hd] at h
    obtain ⟨rfl, rfl⟩ := Prod.mk.inj h
    exact ⟨c, rfl, rfl⟩

/-- The first value of a variable has been read, if one is written. -/
theorem readInit_clean {n : Nat} {p q : ParseState} {t : Expr} (hp : Ready p)
    (hn : 4 * p.stream.length + 1 ≤ n)
    (h : (if p.at? .equal then p.advance.readExpr n .assignment else (.nil p.line, p)) = (t, q))
    (hc : q.diagnostics = []) :
    ∃ init, p.context.value? p.line init = some (t, q.context) ∧ Ready q ∧
      (init = none ∧ p.stream = q.stream ∨ ∃ e eq ts, init = some e ∧ eq.kind = .equal ∧
        Derives ts (.expr .assignment e) ∧ p.stream = eq :: ts ++ q.stream) := by
  split at h
  · next heq =>
    have heq' : p.current.kind = .equal := by simpa [at?] using heq
    have hk := (keeps_readExpr n .assignment p.advance).result h
    obtain ⟨hta, ha⟩ := hp.advance (by simp [heq']) (hk.clean hc)
    have hlen := hta.length
    obtain ⟨e, ts, hts, hd, hres, -, hq⟩ := readExpr_clean ha (by omega) h hc
    rw [hta.context] at hres
    refine ⟨some e, hres, hq, .inr ⟨e, p.current, ts, rfl, heq', hd, ?_⟩⟩
    rw [hta.stream, hts, List.cons_append]
  · obtain ⟨rfl, rfl⟩ := Prod.mk.inj h
    exact ⟨none, rfl, hp, .inl ⟨rfl, rfl⟩⟩

/-- After `let` comes the declaration of a variable. -/
theorem readLet_clean {n : Nat} {p₀ p q : ParseState} {t : Stmt} (hp : Ready p) (ht : Takes p₀ p)
    (hkw : p₀.current.kind = .kwLet) (hn : 4 * p.stream.length + 1 ≤ n) (h : p.readLet n = (t, q))
    (hc : q.diagnostics = []) : ∃ s, ReadsClause .declaration p₀ q s t := by
  unfold readLet at h
  simp only at h
  generalize hx : p.expect .identifier "variable name" = p₁ at h
  generalize hd : p₁.declare p₁.previous.text = p₂ at h
  rcases hi : (if p₂.at? .equal then p₂.advance.readExpr n .assignment
    else (.nil p₂.line, p₂)) with ⟨t₁, p₃⟩
  rw [hi] at h
  simp only at h
  generalize hs : p₃.expect .semicolon "';' after variable declaration" = p₄ at h
  rcases hdef : p₄.define p₁.previous.text with ⟨v, p₅⟩
  rw [hdef] at h
  obtain ⟨rfl, rfl⟩ := Prod.mk.inj h
  have hc₄ : p₄.diagnostics = [] := ((keeps_define p₄ p₁.previous.text).result hdef).clean hc
  have hc₃ : p₃.diagnostics = [] := (keeps_expect p₃ _ _).clean (hs ▸ hc₄)
  have hc₂ : p₂.diagnostics = [] := ((keeps_readInit n p₂).result hi).clean hc₃
  have hc₁ : p₁.diagnostics = [] := (keeps_declare p₁ _).clean (hd ▸ hc₂)
  subst hx
  obtain ⟨hid, hti, hp₁⟩ := hp.expect (by simp) hc₁
  have hlen := hti.length
  rw [hti.previous] at hd hdef
  -- the name is declared before its first value is read
  obtain ⟨c, hdecl, hd'⟩ := declare_clean hp₁.sane (hd ▸ hc₂)
  obtain rfl := hd'.symm.trans hd
  rw [hti.context, ht.context] at hdecl
  obtain ⟨init, hinit, hp₃, hspell⟩ :=
    readInit_clean (hp₁.withContext c) (by simpa using by omega) hi hc₃
  subst hs
  obtain ⟨hsemi, hts, hp₄⟩ := hp₃.expect (by simp) hc₄
  obtain ⟨c', hdef', rfl⟩ := define_clean hp₄.sane hdef hc
  rw [hts.context] at hdef'
  have hline : ((p.expect .identifier "variable name").withContext c).line = p.current.line :=
    hti.line
  rw [hline, context_withContext] at hinit
  refine ⟨.declare p.current.text p.current.line init p₃.current.line, ⟨?_, ?_, hts.line, ?_⟩⟩
  · rw [stream_withContext] at hspell ⊢
    rcases hspell with ⟨rfl, he⟩ | ⟨e, eq, ts, rfl, heq, hde, he⟩
    · refine ⟨[p₀.current, p.current, p₃.current], ?_, .declare hkw hid hsemi⟩
      rw [ht.stream, hti.stream, he, hts.stream]
      rfl
    · refine ⟨p₀.current :: p.current :: eq :: ts ++ [p₃.current], ?_,
        .declareWith hkw hid heq hde hsemi⟩
      rw [ht.stream, hti.stream, he, hts.stream]
      simp
  · simp [Clause.elaborate, hdecl, hinit, hdef', hts.line]
  · intro h
    cases h

/-- After `return` comes a value, or none. -/
theorem readReturn_clean {n : Nat} {p₀ p q : ParseState} {t : Stmt} (hp : Ready p) (ht : Takes p₀ p)
    (hkw : p₀.current.kind = .kwReturn) (hn : 4 * p.stream.length + 1 ≤ n)
    (h : p.readReturn n = (t, q)) (hc : q.diagnostics = []) :
    ∃ s, ReadsClause .statement p₀ q s t := by
  unfold readReturn at h
  split at h
  · next hsemi =>
    have hsemi' : p.current.kind = .semicolon := by simpa [at?] using hsemi
    obtain ⟨rfl, rfl⟩ := Prod.mk.inj h
    obtain ⟨hta, -⟩ := hp.advance (by simp [hsemi']) hc
    refine ⟨.ret none p.current.line, ⟨⟨[p₀.current, p.current], ?_, .ret hkw hsemi'⟩, ?_, hta.line,
      fun h => by cases h⟩⟩
    · rw [ht.stream, hta.stream]
      rfl
    · simp [Clause.elaborate, Context.value?, hta.line, hta.context, ht.context]
  · rcases hx : p.readExpr n .assignment with ⟨t₁, r⟩
    rw [hx] at h
    obtain ⟨rfl, rfl⟩ := Prod.mk.inj h
    obtain ⟨e, ts, hts, hd, hres, -, hr⟩ := readExpr_clean hp hn hx ((keeps_expect r _ _).clean hc)
    obtain ⟨hsemi, htr, -⟩ := hr.expect (by simp) hc
    refine ⟨.ret (some e) r.current.line, ⟨⟨p₀.current :: ts ++ [r.current], ?_,
      .retWith hkw hd hsemi⟩, ?_, htr.line, fun h => by cases h⟩⟩
    · rw [ht.stream, hts, htr.stream]
      simp
    · rw [ht.context] at hres
      simp [Clause.elaborate, Context.value?, hres, htr.line, htr.context]

/-- Parameters have been read, after those in `read`. -/
theorem readParameters_clean {n : Nat} {read : List String} {p q : ParseState} {xs : List String}
    (hp : Ready p) (hn : p.stream.length ≤ n) (h : p.readParameters n read = (xs, q))
    (hc : q.diagnostics = []) (hmax : read.length ≤ maxArguments) :
    ∃ ys ts, xs = read.reverse ++ ys ∧ read.length + ys.length ≤ maxArguments ∧
      p.stream = ts ++ q.stream ∧ Parameters ts ys ∧
      Context.declareAll? ys p.context = some q.context ∧ Ready q := by
  induction n generalizing read p with
  | zero => simp [stream] at hn
  | succ n ih =>
    have hkl := keeps_limitParameters p read
    rw [readParameters] at h
    generalize hl : (if read.length = maxArguments then p.complainAt p.current .tooManyParameters
      else p) = p₁ at h hkl
    generalize hx : p₁.expect .identifier "parameter name" = p₂ at h
    generalize hd : (p₂.declare p₂.previous.text).settle = p₃ at h
    have hc₃ : p₃.diagnostics = [] := by
      split at h
      · exact ((keeps_advance p₃).trans ((keeps_readParameters n _ _).result h)).clean hc
      · obtain ⟨-, rfl⟩ := Prod.mk.inj h
        exact hc
    have hc₂ : p₂.diagnostics = [] :=
      ((keeps_declare p₂ _).trans (keeps_settle _)).clean (hd ▸ hc₃)
    have hc₁ : p₁.diagnostics = [] := (keeps_expect p₁ _ _).clean (hx ▸ hc₂)
    -- there is room for one more parameter
    have hroom : read.length < maxArguments := by
      by_contra hge
      rw [if_pos (by omega)] at hl
      rw [← hl] at hc₁
      exact complainAt_failed hp.sane _ _ hc₁
    rw [if_neg (by omega)] at hl
    subst hl hx
    obtain ⟨hid, hti, hp₂⟩ := hp.expect (by simp) hc₂
    have hlen := hti.length
    rw [hti.previous] at h hd
    obtain ⟨c, hdecl, hd'⟩ := declareSettled_clean hp₂.sane (hd ▸ hc₃)
    obtain rfl := hd'.symm.trans hd
    rw [hti.context] at hdecl
    have hp₃ := hp₂.withContext c
    split at h
    · next hcomma =>
      have hcomma' := by simpa [at?] using hcomma
      have hk := (keeps_readParameters n (p.current.text :: read) _).result h
      obtain ⟨hta, ha⟩ := hp₃.advance (by simp [hcomma']) (hk.clean hc)
      have hlena := hta.length
      rw [stream_withContext] at hlena
      obtain ⟨ys, ts, rfl, hys, hts, hpar, hall, hq⟩ := ih ha (by omega) h hroom
      refine ⟨p.current.text :: ys, p.current :: _ :: ts, by simp, ?_, ?_,
        .more hid hcomma' hpar, ?_, hq⟩
      · simp at hys ⊢
        omega
      · have hst := hta.stream
        rw [stream_withContext, current_withContext, hts] at hst
        rw [hti.stream, hst]
        rfl
      · rw [hta.context, context_withContext] at hall
        simp [Context.declareAll?, hdecl, hall]
    · obtain ⟨rfl, rfl⟩ := Prod.mk.inj h
      refine ⟨[p.current.text], [p.current], by simp, by simp; omega, ?_, .last hid, ?_, hp₃⟩
      · rw [hti.stream]
        rfl
      · simp [Context.declareAll?, hdecl]

/-- A jump that is not complained about is short enough. -/
theorem checkJump_clean {p : ParseState} {offset : Nat} (hs : p.Sane)
    (hc : (p.checkJump offset).diagnostics = []) : offset ≤ maxOffset ∧ p.checkJump offset = p := by
  unfold checkJump at hc ⊢
  split at hc
  · exact absurd hc (complain_failed hs _)
  · next h =>
    rw [if_neg h]
    exact ⟨Nat.le_of_not_lt h, rfl⟩

/-- A jump back that leaves no error is short enough. -/
theorem checkLoop_clean {p : ParseState} {offset : Nat} (hs : p.Sane)
    (hc : (p.checkLoop offset).diagnostics = []) : offset ≤ maxOffset ∧ p.checkLoop offset = p := by
  unfold checkLoop at hc ⊢
  split at hc
  · exact absurd hc (complain_failed hs _)
  · next h =>
    rw [if_neg h]
    exact ⟨Nat.le_of_not_lt h, rfl⟩

/-- A function that is closed without an error has become a literal. -/
theorem closeFunction_clean {p q outer : ParseState} {name : String} {arity : Nat} {body : Block}
    {index : Nat} (hs : p.Sane) (h : p.closeFunction outer name arity body = (index, q))
    (hc : q.diagnostics = []) :
    ∃ c, p.context.closeFunction? outer.context
        (.ofBody ⟨p.unit, p.serial⟩ (some name) arity p.literals body p.line) = some (index, c) ∧
      q = p.withContext c := by
  unfold closeFunction at h
  simp only [Function.assemble_eq] at h
  generalize hp' : { p with
      scope := outer.scope, literals := outer.literals, serial := p.serial + 1 } = p' at h
  have hk : Keeps p p' := by
    rw [← hp']
    exact .of_eq rfl rfl
  cases hl : p'.context.addLiteral?
      (.function (.ofBody ⟨p.unit, p.serial⟩ (some name) arity p.literals body p.line)) with
  | none =>
    have hf := addLiteral_failed (hk.sane hs) hl
    rw [h] at hf
    exact absurd hc hf
  | some r =>
    obtain ⟨i, c⟩ := r
    rw [addLiteral_eq hl] at h
    obtain ⟨rfl, rfl⟩ := Prod.mk.inj h
    subst hp'
    exact ⟨c, hl, rfl⟩

/-- The name of a function is declared before its parameters are read. -/
theorem declareFunction_clean {p : ParseState} {x : String} (hs : p.Sane)
    (hc : (if p.scope.depth = 0 then p.addGlobal x else (p.declare x).settle).diagnostics = []) :
    ∃ c, p.context.declareFunction? x = some c ∧
      (if p.scope.depth = 0 then p.addGlobal x else (p.declare x).settle) = p.withContext c := by
  unfold Context.declareFunction?
  by_cases hd : p.scope.depth = 0
  · have hd' : p.context.scope.depth = 0 := hd
    rw [if_pos hd, if_pos hd']
    exact ⟨_, rfl, rfl⟩
  · have hd' : ¬ p.context.scope.depth = 0 := hd
    rw [if_neg hd] at hc
    rw [if_neg hd, if_neg hd']
    exact declareSettled_clean hs hc

/-- The parameters in the parentheses of a function have been read, if there are any. -/
theorem readSignature_clean {n : Nat} {p q : ParseState} {xs : List String} (hp : Ready p)
    (hn : p.stream.length ≤ n)
    (h : (if p.at? .rightParen then ([], p) else p.readParameters n []) = (xs, q))
    (hc : q.diagnostics = []) :
    xs.length ≤ maxArguments ∧ Context.declareAll? xs p.context = some q.context ∧ Ready q ∧
      ∃ ts, p.stream = ts ++ q.stream ∧ (xs = [] ∧ ts = [] ∨ Parameters ts xs) := by
  split at h
  · obtain ⟨rfl, rfl⟩ := Prod.mk.inj h
    exact ⟨Nat.zero_le _, rfl, hp, [], rfl, .inl ⟨rfl, rfl⟩⟩
  · obtain ⟨ys, ts, rfl, hmax, hts, hpar, hall, hq⟩ :=
      readParameters_clean hp hn h hc (Nat.zero_le _)
    exact ⟨by simpa using hmax, hall, hq, ts, hts, .inr hpar⟩

/-! ## Statements -/

/-- The budget `n` suffices to read every kind of statement, and what is read without an error is
what the grammar and the static rules say.  The readers of a construct start after its first word,
which is the current token of `p₀`. -/
structure StmtSound (n : Nat) : Prop where
  declaration : ∀ {p q : ParseState} {t : Stmt}, Ready p → p.current.kind ≠ .eof →
    4 * p.stream.length + 3 ≤ n → readDeclaration n p = (t, q) → q.diagnostics = [] →
    ∃ s, ReadsClause .declaration p q s t
  function : ∀ {p₀ p q : ParseState} {t : Stmt}, Ready p → Takes p₀ p → p₀.current.kind = .kwFun →
    4 * p.stream.length + 4 ≤ n → readFunction n p = (t, q) → q.diagnostics = [] →
    ∃ s, ReadsClause .declaration p₀ q s t
  statement : ∀ {p q : ParseState} {t : Stmt}, Ready p →
    4 * p.stream.length + 2 ≤ n → readStatement n p = (t, q) → q.diagnostics = [] →
    ∃ s, ReadsClause .statement p q s t
  ifThen : ∀ {p₀ p q : ParseState} {t : Stmt}, Ready p → Takes p₀ p → p₀.current.kind = .kwIf →
    4 * p.stream.length + 4 ≤ n → readIf n p = (t, q) → q.diagnostics = [] →
    ∃ s, ReadsClause .statement p₀ q s t
  loop : ∀ {p₀ p q : ParseState} {t : Stmt}, Ready p → Takes p₀ p → p₀.current.kind = .kwWhile →
    4 * p.stream.length + 4 ≤ n → readWhile n p = (t, q) → q.diagnostics = [] →
    ∃ s, ReadsClause .statement p₀ q s t
  block : ∀ {read b : Block} {p q : ParseState}, Ready p →
    4 * p.stream.length + 4 ≤ n → readBlock n read p = (b, q) → q.diagnostics = [] →
    ∃ ss ts rb, p.stream = ts ++ rb :: q.stream ∧ Spells ts (.sequence ss) ∧ rb.kind = .rightBrace ∧
      Clause.elaborateAll ss read p.context = some (b, q.context) ∧ q.line = rb.line ∧ Ready q

theorem ReadsClause.ready {kind : Clause → Sentence} {p q : ParseState} {s : Clause} {t : Stmt}
    (h : ReadsClause kind p q s t) (hp : Ready p) (hk : Keeps p q) : Ready q := by
  obtain ⟨⟨ts, hts, -⟩, -⟩ := h
  exact hp.skip hk hts

namespace StmtSound

variable {n : Nat}

/-- A word, then a semicolon. -/
theorem word_clean {p : ParseState} {what : String} (hp : Ready p) (hk : p.current.kind ≠ .eof)
    (hc : (p.advance.expect .semicolon what).diagnostics = []) :
    ∃ semi, p.stream = [p.current, semi] ++ (p.advance.expect .semicolon what).stream ∧
      semi.kind = .semicolon ∧ (p.advance.expect .semicolon what).line = semi.line ∧
      (p.advance.expect .semicolon what).context = p.context := by
  obtain ⟨ht, ha⟩ := hp.advance hk ((keeps_expect _ _ _).clean hc)
  obtain ⟨hsemi, hts, -⟩ := ha.expect (by simp) hc
  refine ⟨p.advance.current, ?_, hsemi, hts.line, ?_⟩
  · rw [ht.stream, hts.stream]
    rfl
  · rw [hts.context, ht.context]

/-- A statement that was read without an error is one of the grammar and of the static rules. -/
theorem succ_statement (ih : StmtSound n) {p q : ParseState} {t : Stmt} (hp : Ready p)
    (hn : 4 * p.stream.length + 2 ≤ n + 1) (h : readStatement (n + 1) p = (t, q))
    (hc : q.diagnostics = []) : ∃ s, ReadsClause .statement p q s t := by
  rw [readStatement] at h
  -- the first word of a statement is taken by its reader
  have first : ∀ {k : TokenKind}, p.current.kind = k → k ≠ .eof → Keeps p.advance q →
      Takes p p.advance ∧ Ready p.advance ∧ 4 * p.advance.stream.length + 5 ≤ n := by
    intro k hk hne hkq
    obtain ⟨ht, ha⟩ := hp.advance (hk ▸ hne) (hkq.clean hc)
    have hlen := ht.length
    exact ⟨ht, ha, by omega⟩
  split at h
  · next hk =>
    rcases hx : p.advance.readExpr n .assignment with ⟨t₁, r⟩
    have hkr := (keeps_readExpr n .assignment p.advance).result hx
    rw [hx] at h
    obtain ⟨rfl, rfl⟩ := Prod.mk.inj h
    obtain ⟨ht, ha, hn'⟩ := first hk (by simp) (hkr.trans (keeps_expect _ _ _))
    obtain ⟨e, ts, hts, hd, hres, -, hr⟩ :=
      readExpr_clean ha (by omega) hx ((keeps_expect _ _ _).clean hc)
    obtain ⟨hsemi, htr, -⟩ := hr.expect (by simp) hc
    refine ⟨.print e r.current.line, ⟨⟨p.current :: ts ++ [r.current], ?_, .print hk hd hsemi⟩, ?_,
      htr.line, fun h => by cases h⟩⟩
    · rw [ht.stream, hts, htr.stream]
      simp
    · rw [ht.context] at hres
      simp [Clause.elaborate, hres, htr.line, htr.context]
  · next hk =>
    have hkq := ((stmtKeeps n).ifThen p.advance).result h
    obtain ⟨ht, ha, hn'⟩ := first hk (by simp) hkq
    exact ih.ifThen ha ht hk (by omega) h hc
  · next hk =>
    have hkq := ((stmtKeeps n).loop p.advance).result h
    obtain ⟨ht, ha, hn'⟩ := first hk (by simp) hkq
    exact ih.loop ha ht hk (by omega) h hc
  · next hk =>
    have hkq := (keeps_readReturn n p.advance).result h
    obtain ⟨ht, ha, hn'⟩ := first hk (by simp) hkq
    exact readReturn_clean ha ht hk (by omega) h hc
  · next hk =>
    obtain ⟨rfl, rfl⟩ := Prod.mk.inj h
    obtain ⟨semi, hst, hsemi, hline, hctx⟩ := word_clean hp (by simp [hk]) hc
    refine ⟨.yield semi.line, ⟨⟨_, hst, .yield hk hsemi⟩, ?_, hline, fun h => by cases h⟩⟩
    simp [Clause.elaborate, hline, hctx]
  · next hk =>
    obtain ⟨rfl, rfl⟩ := Prod.mk.inj h
    obtain ⟨semi, hst, hsemi, hline, hctx⟩ := word_clean hp (by simp [hk]) hc
    refine ⟨.stop semi.line, ⟨⟨_, hst, .stop hk hsemi⟩, ?_, hline, fun h => by cases h⟩⟩
    simp [Clause.elaborate, hline, hctx]
  · next hk =>
    rcases hx : readBlock n .empty p.advance.enter with ⟨b, r⟩
    have hkr := (stmtKeeps n).block .empty (p.advance.withContext p.advance.context.enter)
    rw [hx] at h
    replace h : (Stmt.block b r.context.scope.leave.1 r.line, r.withContext r.context.leave) =
      (t, q) := h
    replace hx : readBlock n .empty (p.advance.withContext p.advance.context.enter) = (b, r) := hx
    rw [hx] at hkr
    obtain ⟨rfl, rfl⟩ := Prod.mk.inj h
    obtain ⟨ht, ha, hn'⟩ := first hk (by simp)
      (((keeps_withContext _ _).trans hkr).trans (keeps_withContext r _))
    obtain ⟨ss, ts, rb, hts, hsp, hrb, hres, hline, -⟩ := ih.block (ha.withContext _)
      (by rw [stream_withContext]; omega) hx hc
    refine ⟨.block ss rb.line, ⟨⟨p.current :: ts ++ [rb], ?_, .block hk hsp hrb⟩, ?_, hline,
      fun h => by cases h⟩⟩
    · rw [stream_withContext] at hts ⊢
      rw [ht.stream, hts]
      simp
    · rw [context_withContext, ht.context] at hres
      simp [Clause.elaborate, hres, hline]
  · rcases hx : p.readExpr n .assignment with ⟨t₁, r⟩
    rw [hx] at h
    obtain ⟨rfl, rfl⟩ := Prod.mk.inj h
    obtain ⟨e, ts, hts, hd, hres, -, hr⟩ :=
      readExpr_clean hp (by omega) hx ((keeps_expect _ _ _).clean hc)
    obtain ⟨hsemi, htr, -⟩ := hr.expect (by simp) hc
    refine ⟨.expr e r.current.line, ⟨⟨ts ++ [r.current], ?_, .expr hd hsemi⟩, ?_,
      htr.line, fun h => by cases h⟩⟩
    · rw [hts, htr.stream]
      simp
    · simp [Clause.elaborate, hres, htr.line, htr.context]

/-- A conditional is, behind its keyword, with one branch or with two. -/
theorem succ_ifThen (ih : StmtSound n) {p₀ p q : ParseState} {t : Stmt} (hp : Ready p)
    (ht : Takes p₀ p) (hkw : p₀.current.kind = .kwIf) (hn : 4 * p.stream.length + 4 ≤ n + 1)
    (h : readIf (n + 1) p = (t, q)) (hc : q.diagnostics = []) :
    ∃ s, ReadsClause .statement p₀ q s t := by
  rw [readIf] at h
  rcases hx : p.readCondition n "if" with ⟨t₁, r⟩
  rw [hx] at h
  simp only at h
  rcases hb : readStatement n r with ⟨b, r'⟩
  have hkb := ((stmtKeeps n).statement r).result hb
  rw [hb] at h
  simp only at h
  generalize hj : r'.checkJump (skipBody b) = r'' at h
  have hkj : Keeps r' r'' := hj ▸ keeps_checkJump r' _
  have hcj : r''.diagnostics = [] := by
    split at h
    · have hk := (keeps_advance r'').trans ((stmtKeeps n).statement r''.advance)
      obtain ⟨-, rfl⟩ := Prod.mk.inj h
      exact (hk.trans (keeps_checkJump _ _)).clean hc
    · obtain ⟨-, rfl⟩ := Prod.mk.inj h
      exact hc
  have hcb := hkj.clean hcj
  obtain ⟨e, lp, rp, ts, hts, hlp, hd, hrp, hres, hline, hr⟩ :=
    readCondition_clean hp (by omega) hx (hkb.clean hcb)
  have hlen : r.stream.length + 2 ≤ p.stream.length := by
    rw [hts]
    simp
  obtain ⟨body, hbody⟩ := ih.statement hr (by omega) hb hcb
  have hr' := hbody.ready hr hkb
  obtain ⟨hskip, hj'⟩ := checkJump_clean hr'.sane (hj ▸ hcj)
  rw [skipBody_eq] at hskip
  obtain rfl := hj'.symm.trans hj
  obtain ⟨⟨us, hus, hsp⟩, hresb, hlineb, hclosed⟩ := hbody
  rw [ht.context] at hres
  split at h
  · next helse =>
    have helse' : r'.current.kind = .kwElse := by simpa [at?] using helse
    rcases ho : readStatement n r'.advance with ⟨o, r₃⟩
    have hko := ((stmtKeeps n).statement r'.advance).result ho
    rw [ho] at h
    simp only at h
    obtain ⟨rfl, rfl⟩ := Prod.mk.inj h
    have hco := (keeps_checkJump r₃ _).clean hc
    obtain ⟨hte, hre⟩ := hr'.advance (by simp [helse']) (hko.clean hco)
    have hlene : r'.advance.stream.length + 1 ≤ r.stream.length := by
      rw [hus, hte.stream]
      simp
    obtain ⟨other, hother⟩ := ih.statement hre (by omega) ho hco
    have hr₃ := hother.ready hre hko
    obtain ⟨hskip', hj₃⟩ := checkJump_clean hr₃.sane hc
    rw [skipOther_eq] at hskip'
    rw [hj₃]
    obtain ⟨⟨vs, hvs, hspo⟩, hreso, hlineo, hclosedo⟩ := hother
    -- the reader took the `else`, so the first branch could not have it
    have hopen : body.isOpen = false := by
      cases hi : body.isOpen with
      | false => rfl
      | true => exact absurd helse' (hclosed hi)
    refine ⟨.ifElse e rp.line body other,
      ⟨⟨p₀.current :: lp :: ts ++ rp :: us ++ r'.current :: vs, ?_,
        .ifElse hkw hlp hd hrp hsp hopen helse' hspo⟩, ?_, hlineo, hclosedo⟩⟩
    · rw [ht.stream, hts, hus, hte.stream, hvs]
      simp
    · rw [hte.context] at hreso
      simp only [Clause.elaborate, hres, hresb, hreso, hline, hlineb, guard, if_pos hskip,
        if_pos hskip', Option.bind_eq_bind, Option.bind_some]
      rfl
  · next helse =>
    obtain ⟨rfl, rfl⟩ := Prod.mk.inj h
    refine ⟨.ifThen e rp.line body, ⟨⟨p₀.current :: lp :: ts ++ rp :: us, ?_,
      .ifThen hkw hlp hd hrp hsp⟩, ?_, hlineb, fun _ => by simpa [at?] using helse⟩⟩
    · rw [ht.stream, hts, hus]
      simp
    · simp [Clause.elaborate, hres, hresb, hskip, hline, hlineb]

/-- A loop is, behind its keyword. -/
theorem succ_loop (ih : StmtSound n) {p₀ p q : ParseState} {t : Stmt} (hp : Ready p)
    (ht : Takes p₀ p) (hkw : p₀.current.kind = .kwWhile) (hn : 4 * p.stream.length + 4 ≤ n + 1)
    (h : readWhile (n + 1) p = (t, q)) (hc : q.diagnostics = []) :
    ∃ s, ReadsClause .statement p₀ q s t := by
  rw [readWhile] at h
  rcases hx : p.readCondition n "while" with ⟨t₁, r⟩
  rw [hx] at h
  simp only at h
  rcases hb : readStatement n r with ⟨b, r'⟩
  have hkb := ((stmtKeeps n).statement r).result hb
  rw [hb] at h
  obtain ⟨rfl, rfl⟩ := Prod.mk.inj h
  have hcl := (keeps_checkJump _ _).clean hc
  have hcb := (keeps_checkLoop _ _).clean hcl
  obtain ⟨e, lp, rp, ts, hts, hlp, hd, hrp, hres, hline, hr⟩ :=
    readCondition_clean hp (by omega) hx (hkb.clean hcb)
  have hlen : r.stream.length + 2 ≤ p.stream.length := by
    rw [hts]
    simp
  obtain ⟨body, hbody⟩ := ih.statement hr (by omega) hb hcb
  have hr' := hbody.ready hr hkb
  obtain ⟨hback, hl⟩ := checkLoop_clean hr'.sane hcl
  rw [loopBack_eq] at hback
  rw [hl] at hc ⊢
  obtain ⟨-, hj⟩ := checkJump_clean hr'.sane hc
  rw [hj]
  obtain ⟨⟨us, hus, hsp⟩, hresb, hlineb, hclosed⟩ := hbody
  rw [ht.context] at hres
  refine ⟨.loop e rp.line body, ⟨⟨p₀.current :: lp :: ts ++ rp :: us, ?_,
    .loop hkw hlp hd hrp hsp⟩, ?_, hlineb, hclosed⟩⟩
  · rw [ht.stream, hts, hus]
    simp
  · simp [Clause.elaborate, hres, hresb, hback, hline, hlineb]

/-- The declarations of a block were read up to the closing brace, onto those before them. -/
theorem succ_block (ih : StmtSound n) {read b : Block} {p q : ParseState} (hp : Ready p)
    (hn : 4 * p.stream.length + 4 ≤ n + 1) (h : readBlock (n + 1) read p = (b, q))
    (hc : q.diagnostics = []) :
    ∃ ss ts rb, p.stream = ts ++ rb :: q.stream ∧ Spells ts (.sequence ss) ∧ rb.kind = .rightBrace ∧
      Clause.elaborateAll ss read p.context = some (b, q.context) ∧ q.line = rb.line ∧ Ready q := by
  rw [readBlock] at h
  split at h
  · obtain ⟨rfl, rfl⟩ := Prod.mk.inj h
    obtain ⟨hrb, ht, hq⟩ := hp.expect (by simp) hc
    refine ⟨[], [], p.current, ht.stream, .none, hrb, ?_, ht.line, hq⟩
    simp [Clause.elaborateAll, ht.context]
  · next hend =>
    have heof : p.current.kind ≠ .eof := by
      intro he
      simp [at?, he] at hend
    rcases hd : readDeclaration n p with ⟨t, r⟩
    have hkd := ((stmtKeeps n).declaration p).result hd
    rw [hd] at h
    have hkb := ((stmtKeeps n).block (read.append t) r).result h
    obtain ⟨s, hs⟩ := ih.declaration hp heof (by omega) hd (hkb.clean hc)
    have hr := hs.ready hp hkd
    obtain ⟨⟨us, hus, hsp⟩, hres, -, -⟩ := hs
    have hlen : r.stream.length + 1 ≤ p.stream.length := by
      obtain ⟨u, us', rfl, -⟩ := hsp.head_declaration
      rw [hus]
      simp
    obtain ⟨ss, ts, rb, hts, hspb, hrb, hresb, hline, hq⟩ := ih.block hr (by omega) h hc
    refine ⟨s :: ss, us ++ ts, rb, ?_, .more hsp hspb, hrb, ?_, hline, hq⟩
    · rw [hus, hts, List.append_assoc]
    · simp [Clause.elaborateAll, hres, hresb]

/-- A declaration that was read without an error was one: recovery was not needed. -/
theorem succ_declaration (ih : StmtSound n) {p q : ParseState} {t : Stmt} (hp : Ready p)
    (heof : p.current.kind ≠ .eof) (hn : 4 * p.stream.length + 3 ≤ n + 1)
    (h : readDeclaration (n + 1) p = (t, q)) (hc : q.diagnostics = []) :
    ∃ s, ReadsClause .declaration p q s t := by
  rw [readDeclaration] at h
  rcases hx : (if p.at? .kwFun then readFunction n p.advance
      else if p.at? .kwLet then p.advance.readLet n else readStatement n p) with ⟨t₁, r⟩
  rw [hx] at h
  simp only at h
  -- without an error there is nothing to recover from
  have hk : Keeps p r := ((stmtKeeps n).clause p).result hx
  have hcr : r.diagnostics = [] := by
    obtain ⟨-, rfl⟩ := Prod.mk.inj h
    split at hc
    · exact (keeps_synchronize r).clean hc
    · exact hc
  have hcalm : r.panicking ≠ true := fun hpan => hk.sane hp.sane hpan hcr
  rw [if_neg hcalm] at h
  obtain ⟨rfl, rfl⟩ := Prod.mk.inj h
  split at hx
  · next hfun =>
    have hkf := ((stmtKeeps n).function p.advance).result hx
    obtain ⟨ht, ha⟩ := hp.advance heof (hkf.clean hc)
    have hlen := ht.length
    exact ih.function ha ht (by simpa [at?] using hfun) (by omega) hx hc
  · split at hx
    · next hlet =>
      have hkl := (keeps_readLet n p.advance).result hx
      obtain ⟨ht, ha⟩ := hp.advance heof (hkl.clean hc)
      have hlen := ht.length
      exact readLet_clean ha ht (by simpa [at?] using hlet) (by omega) hx hc
    · obtain ⟨s, hs⟩ := ih.statement hp (by omega) hx hc
      exact ⟨s, hs.declaration⟩

/-- A function is, behind its keyword: the name, the parameters and the body in their own scope. -/
theorem succ_function (ih : StmtSound n) {p₀ p q : ParseState} {t : Stmt} (hp : Ready p)
    (ht : Takes p₀ p) (hkw : p₀.current.kind = .kwFun) (hn : 4 * p.stream.length + 4 ≤ n + 1)
    (h : readFunction (n + 1) p = (t, q)) (hc : q.diagnostics = []) :
    ∃ s, ReadsClause .declaration p₀ q s t := by
  rw [readFunction] at h
  simp only at h
  generalize hx₁ : p.expect .identifier "function name" = p₁ at h
  generalize hx₂ : (if p₁.scope.depth = 0 then p₁.addGlobal p₁.previous.text
    else (p₁.declare p₁.previous.text).settle) = outer at h
  generalize hx₃ : outer.openFunction.expect .leftParen "'(' after function name" = p₃ at h
  rcases hx₄ : (if p₃.at? .rightParen then ([], p₃) else p₃.readParameters n []) with ⟨xs, p₄⟩
  rw [hx₄] at h
  simp only at h
  generalize hx₅ : p₄.expect .rightParen "')' after parameters" = p₅ at h
  generalize hx₆ : p₅.expect .leftBrace "'\x7b' before function body" = p₆ at h
  rcases hx₇ : readBlock n .empty p₆ with ⟨b, p₇⟩
  rw [hx₇] at h
  simp only at h
  rcases hx₈ : p₇.closeFunction outer p₁.previous.text xs.length b with ⟨index, p₈⟩
  rw [hx₈] at h
  simp only at h
  rcases hx₉ : p₈.define p₁.previous.text with ⟨v, p₉⟩
  rw [hx₉] at h
  obtain ⟨rfl, rfl⟩ := Prod.mk.inj h
  -- no step of the way reported an error
  have hc₈ : p₈.diagnostics = [] := ((keeps_define p₈ p₁.previous.text).result hx₉).clean hc
  have hc₇ : p₇.diagnostics = [] :=
    ((keeps_closeFunction p₇ outer p₁.previous.text xs.length b).result hx₈).clean hc₈
  have hk₇ : Keeps p₆ p₇ := ((stmtKeeps n).block .empty p₆).result hx₇
  have hc₆ : p₆.diagnostics = [] := hk₇.clean hc₇
  have hc₅ : p₅.diagnostics = [] := (keeps_expect p₅ _ _).clean (hx₆ ▸ hc₆)
  have hc₄ : p₄.diagnostics = [] := (keeps_expect p₄ _ _).clean (hx₅ ▸ hc₅)
  have hc₃ : p₃.diagnostics = [] := ((keeps_readSignature n p₃).result hx₄).clean hc₄
  have hc₂ : outer.diagnostics = [] :=
    (keeps_expect outer.openFunction _ _).clean (hx₃ ▸ hc₃)
  have hc₁ : p₁.diagnostics = [] := (keeps_declareName p₁ _).clean (hx₂ ▸ hc₂)
  -- so each of them took what the grammar and the rules ask for
  subst hx₁
  obtain ⟨hid, ht₁, hp₁⟩ := hp.expect (by simp) hc₁
  rw [ht₁.previous] at hx₂ hx₈ hx₉
  obtain ⟨c, hdecl, hx₂'⟩ := declareFunction_clean hp₁.sane (hx₂ ▸ hc₂)
  obtain rfl := hx₂'.symm.trans hx₂
  rw [ht₁.context, ht.context] at hdecl
  subst hx₃
  obtain ⟨hlp, ht₃, hp₃⟩ := (hp₁.withContext c.openFunction).expect (by simp) hc₃
  have hlen₁ := ht₁.length
  have hlen₃ := ht₃.length
  rw [stream_withContext] at hlen₃
  obtain ⟨hmax, hall, hp₄, us, hus, hpar⟩ := readSignature_clean hp₃ (by omega) hx₄ hc₄
  have hlen₄ : p₄.stream.length ≤ p.stream.length := by
    have := congrArg List.length hus
    rw [List.length_append] at this
    omega
  rw [ht₃.context, context_withContext] at hall
  subst hx₅
  obtain ⟨hrp, ht₅, hp₅⟩ := hp₄.expect (by simp) hc₅
  subst hx₆
  obtain ⟨hlb, ht₆, hp₆⟩ := hp₅.expect (by simp) hc₆
  have hlen₅ := ht₅.length
  have hlen₆ := ht₆.length
  obtain ⟨ss, ts, rb, hts, hsp, hrb, hres, hline, hp₇⟩ := ih.block hp₆ (by omega) hx₇ hc₇
  rw [ht₆.context, ht₅.context] at hres
  obtain ⟨c₈, hclose, rfl⟩ := closeFunction_clean hp₇.sane hx₈ hc₈
  obtain ⟨c₉, hdef, rfl⟩ := define_clean ((keeps_withContext p₇ _).sane hp₇.sane) hx₉ hc
  rw [context_withContext] at hdef hclose
  refine ⟨.function p₇.serial p.current.text xs ss rb.line, ⟨?_, ?_, hline, fun h => by cases h⟩⟩
  · have hst := ht₃.stream
    rw [stream_withContext, current_withContext] at hst
    rcases hpar with ⟨rfl, rfl⟩ | hpar
    · refine ⟨p₀.current :: p.current :: _ :: p₄.current :: _ :: ts ++ [rb], ?_,
        .function _ hkw hid hlp hrp hlb hsp hrb⟩
      rw [ht.stream, ht₁.stream, hst, hus, ht₅.stream, ht₆.stream, hts]
      simp
    · refine ⟨p₀.current :: p.current :: _ :: us ++ p₄.current :: _ :: ts ++ [rb], ?_,
        .functionWith _ hkw hid hlp hpar hrp hlb hsp hrb⟩
      rw [ht.stream, ht₁.stream, hst, hus, ht₅.stream, ht₆.stream, hts]
      simp
  · rw [hline] at hclose
    have hserial : p₇.serial = p₇.context.serial := rfl
    have hclose' : p₇.context.closeFunction? c (.ofBody ⟨p₇.context.unit, p₇.context.serial⟩
      (some p.current.text) xs.length p₇.context.literals b rb.line) = some (index, c₈) := hclose
    simp [Clause.elaborate, hdecl, hmax, hall, hres, hserial, hclose', hdef, hline]

end StmtSound

/-- Reading statements is sound, with every budget that is large enough. -/
theorem stmtSound (n : Nat) : StmtSound n := by
  induction n with
  | zero =>
    constructor
    · intro p q t _ _ hn
      exact absurd hn (by omega)
    · intro p₀ p q t _ _ _ hn
      exact absurd hn (by omega)
    · intro p q t _ hn
      exact absurd hn (by omega)
    · intro p₀ p q t _ _ _ hn
      exact absurd hn (by omega)
    · intro p₀ p q t _ _ _ hn
      exact absurd hn (by omega)
    · intro read b p q _ hn
      exact absurd hn (by omega)
  | succ n ih =>
    exact ⟨ih.succ_declaration, ih.succ_function, ih.succ_statement, ih.succ_ifThen, ih.succ_loop,
      ih.succ_block⟩

/-- A script that is read without an error is spelled by its tokens, and its tree is the one the
static rules give. -/
theorem readScript_clean {n : Nat} {read b : Block} {p q : ParseState} (hp : Ready p)
    (hn : 4 * p.stream.length + 4 ≤ n) (h : readScript n read p = (b, q))
    (hc : q.diagnostics = []) :
    ∃ ss ts t, p.stream = ts ++ [t] ∧ t.kind = .eof ∧ q.line = t.line ∧ Spells ts (.sequence ss) ∧
      Clause.elaborateAll ss read p.context = some (b, q.context) := by
  induction n generalizing read p with
  | zero => simp [stream] at hn
  | succ n ih =>
    rw [readScript] at h
    split at h
    · next heof =>
      have heof' : p.current.kind = .eof := by simpa [at?] using heof
      obtain ⟨rfl, rfl⟩ := Prod.mk.inj h
      obtain ⟨us, t, hst, -, hus⟩ := hp.orderly.ends
      -- the end token is the last one
      have hnil : p.rest = [] := by
        cases us with
        | nil =>
          rw [stream, List.nil_append] at hst
          exact (List.cons.inj hst).2
        | cons u us =>
          rw [stream, List.cons_append] at hst
          exact absurd ((List.cons.inj hst).1 ▸ heof') (hus u (by simp))
      have hadv : p.advance = shift [] p := by rw [advance, hnil]
      refine ⟨[], [], p.current, by rw [stream, hnil]; rfl, heof', ?_, .none, ?_⟩
      · rw [hadv]
        rfl
      · rw [hadv]
        rfl
    · next heof =>
      have heof' : p.current.kind ≠ .eof := by simpa [at?] using heof
      rcases hd : readDeclaration n p with ⟨t, r⟩
      have hkd := ((stmtKeeps n).declaration p).result hd
      rw [hd] at h
      have hkb := (keeps_readScript n (read.append t) r).result h
      obtain ⟨s, hs⟩ := (stmtSound n).declaration hp heof' (by omega) hd (hkb.clean hc)
      have hr := hs.ready hp hkd
      obtain ⟨⟨us, hus, hsp⟩, hres, -, -⟩ := hs
      have hlen : r.stream.length + 1 ≤ p.stream.length := by
        obtain ⟨u, us', rfl, -⟩ := hsp.head_declaration
        rw [hus]
        simp
      obtain ⟨ss, ts, u, hts, hu, hline, hspb, hresb⟩ := ih hr (by omega) h
      refine ⟨s :: ss, us ++ ts, u, ?_, hu, hline, .more hsp hspb, ?_⟩
      · rw [hus, hts, List.append_assoc]
      · simp [Clause.elaborateAll, hres, hresb]

end ParseState

end EntityScript
