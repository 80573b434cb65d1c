/-
# The grammar

Which rows of tokens are expressions, statements and scripts, one rule for each form.

* Expressions come in levels.  An assignment has a name or a member of a name on its left and
associates to the right; equality, comparison, term and factor associate to the left; a prefixed
sign binds more strongly, and calls and members more strongly still.  Nothing is written with `and`
or `or`.
* The branches of a conditional and the body of a loop are statements; only a script, a block and
the body of a function have declarations.
* An `else` belongs to the nearest `if` that has none, so the first branch of a conditional with an
alternative is closed (`Clause.isOpen`).

The rules leave the sites of functions open; `Clause.elaborate` fixes them.
-/
import EntityScript.Compile.Expression
import EntityScript.Proofs.Script.Basic

namespace EntityScript

/-- The operators between two operands: `BinaryAt level kind op` says that tokens of this kind stand
for `op`, whose expressions are of this level. -/
inductive BinaryAt : Precedence → TokenKind → BinaryOp → Prop
  | equal : BinaryAt .equality .equalEqual .equal
  | notEqual : BinaryAt .equality .bangEqual .notEqual
  | greater : BinaryAt .comparison .greater .greater
  | greaterEqual : BinaryAt .comparison .greaterEqual .greaterEqual
  | less : BinaryAt .comparison .less .less
  | lessEqual : BinaryAt .comparison .lessEqual .lessEqual
  | add : BinaryAt .term .plus .add
  | subtract : BinaryAt .term .minus .subtract
  | multiply : BinaryAt .factor .star .multiply
  | divide : BinaryAt .factor .slash .divide

/-- The operators before an operand. -/
inductive UnaryAt : TokenKind → UnaryOp → Prop
  | negate : UnaryAt .minus .negate
  | not : UnaryAt .bang .not

/-- What a row of tokens can be inside an expression. -/
inductive Phrase where
  /-- An expression of a level. -/
  | expr (level : Precedence) (e : Term)
  /-- One or more arguments, with commas between them. -/
  | arguments (es : List Term)

/-- The rules for expressions. -/
inductive Derives : List Token → Phrase → Prop
  | nil {t : Token} : t.kind = .kwNil → Derives [t] (.expr .primary (.nil t.line))
  | yes {t : Token} : t.kind = .kwTrue → Derives [t] (.expr .primary (.bool true t.line))
  | no {t : Token} : t.kind = .kwFalse → Derives [t] (.expr .primary (.bool false t.line))
  | number {t : Token} : t.kind = .number → Derives [t] (.expr .primary (.number t.text t.line))
  | string {t : Token} : t.kind = .string → Derives [t] (.expr .primary (.string t.text t.line))
  | name {t : Token} : t.kind = .identifier → Derives [t] (.expr .primary (.name t.text t.line))
  | group {lp rp : Token} {ts : List Token} {e : Term} : lp.kind = .leftParen →
      Derives ts (.expr .assignment e) → rp.kind = .rightParen →
      Derives (lp :: ts ++ [rp]) (.expr .primary (.group e rp.line))
  | member {dot m : Token} {ts : List Token} {e : Term} : Derives ts (.expr .call e) →
      dot.kind = .dot → m.kind = .identifier →
      Derives (ts ++ [dot, m]) (.expr .call (.member e m.text m.line))
  | call {lp rp : Token} {ts : List Token} {callee : Term} : Derives ts (.expr .call callee) →
      lp.kind = .leftParen → rp.kind = .rightParen →
      Derives (ts ++ [lp, rp]) (.expr .call (.call callee [] rp.line))
  | callWith {lp rp : Token} {ts us : List Token} {callee : Term} {arguments : List Term} :
      Derives ts (.expr .call callee) → lp.kind = .leftParen → Derives us (.arguments arguments) →
      rp.kind = .rightParen →
      Derives (ts ++ lp :: us ++ [rp]) (.expr .call (.call callee arguments rp.line))
  | unary {t : Token} {ts : List Token} {op : UnaryOp} {e : Term} : UnaryAt t.kind op →
      Derives ts (.expr .unary e) → Derives (t :: ts) (.expr .unary (.unary op e))
  | binary {t : Token} {ts us : List Token} {level : Precedence} {op : BinaryOp} {lhs rhs : Term} :
      Derives ts (.expr level lhs) → BinaryAt level t.kind op → Derives us (.expr level.next rhs) →
      Derives (ts ++ t :: us) (.expr level (.binary op lhs rhs))
  | assign {x eq : Token} {ts : List Token} {value : Term} : x.kind = .identifier →
      eq.kind = .equal → Derives ts (.expr .assignment value) →
      Derives (x :: eq :: ts) (.expr .assignment (.assign x.text value))
  | assignMember {x dot m eq : Token} {ts : List Token} {value : Term} : x.kind = .identifier →
      dot.kind = .dot → m.kind = .identifier → eq.kind = .equal →
      Derives ts (.expr .assignment value) →
      Derives (x :: dot :: m :: eq :: ts) (.expr .assignment (.assignMember x.text m.text value))
  /-- What binds more strongly than asked for. -/
  | stronger {ts : List Token} {level : Precedence} {e : Term} :
      Derives ts (.expr level.next e) → Derives ts (.expr level e)
  | last {ts : List Token} {e : Term} : Derives ts (.expr .assignment e) →
    Derives ts (.arguments [e])
  | more {comma : Token} {ts us : List Token} {e : Term} {es : List Term} :
      Derives ts (.expr .assignment e) → comma.kind = .comma → Derives us (.arguments es) →
      Derives (ts ++ comma :: us) (.arguments (e :: es))

/-- One or more parameters, with commas between them. -/
inductive Parameters : List Token → List String → Prop
  | last {x : Token} : x.kind = .identifier → Parameters [x] [x.text]
  | more {x comma : Token} {ts : List Token} {xs : List String} : x.kind = .identifier →
      comma.kind = .comma → Parameters ts xs → Parameters (x :: comma :: ts) (x.text :: xs)

/-- What a row of tokens can be outside of expressions. -/
inductive Sentence where
  | statement (s : Clause)
  | declaration (s : Clause)
  /-- Declarations and statements, one after the other. -/
  | sequence (ss : List Clause)

/-- The rules for statements, declarations and their sequences. -/
inductive Spells : List Token → Sentence → Prop
  | expr {semi : Token} {ts : List Token} {e : Term} : Derives ts (.expr .assignment e) →
      semi.kind = .semicolon → Spells (ts ++ [semi]) (.statement (.expr e semi.line))
  | print {kw semi : Token} {ts : List Token} {e : Term} : kw.kind = .kwPrint →
      Derives ts (.expr .assignment e) → semi.kind = .semicolon →
      Spells (kw :: ts ++ [semi]) (.statement (.print e semi.line))
  | ifThen {kw lp rp : Token} {ts us : List Token} {cond : Term} {body : Clause} :
      kw.kind = .kwIf → lp.kind = .leftParen → Derives ts (.expr .assignment cond) →
      rp.kind = .rightParen → Spells us (.statement body) →
      Spells (kw :: lp :: ts ++ rp :: us) (.statement (.ifThen cond rp.line body))
  | ifElse {kw lp rp el : Token} {ts us vs : List Token} {cond : Term} {body other : Clause} :
      kw.kind = .kwIf → lp.kind = .leftParen → Derives ts (.expr .assignment cond) →
      rp.kind = .rightParen → Spells us (.statement body) → body.isOpen = false →
      el.kind = .kwElse → Spells vs (.statement other) →
      Spells (kw :: lp :: ts ++ rp :: us ++ el :: vs) (.statement (.ifElse cond rp.line body other))
  | loop {kw lp rp : Token} {ts us : List Token} {cond : Term} {body : Clause} :
      kw.kind = .kwWhile → lp.kind = .leftParen → Derives ts (.expr .assignment cond) →
      rp.kind = .rightParen → Spells us (.statement body) →
      Spells (kw :: lp :: ts ++ rp :: us) (.statement (.loop cond rp.line body))
  | ret {kw semi : Token} : kw.kind = .kwReturn → semi.kind = .semicolon →
      Spells [kw, semi] (.statement (.ret none semi.line))
  | retWith {kw semi : Token} {ts : List Token} {e : Term} : kw.kind = .kwReturn →
      Derives ts (.expr .assignment e) → semi.kind = .semicolon →
      Spells (kw :: ts ++ [semi]) (.statement (.ret (some e) semi.line))
  | yield {kw semi : Token} : kw.kind = .kwYield → semi.kind = .semicolon →
      Spells [kw, semi] (.statement (.yield semi.line))
  | stop {kw semi : Token} : kw.kind = .kwEnd → semi.kind = .semicolon →
      Spells [kw, semi] (.statement (.stop semi.line))
  | block {lb rb : Token} {ts : List Token} {ss : List Clause} : lb.kind = .leftBrace →
      Spells ts (.sequence ss) → rb.kind = .rightBrace →
      Spells (lb :: ts ++ [rb]) (.statement (.block ss rb.line))
  | ofStatement {ts : List Token} {s : Clause} : Spells ts (.statement s) →
      Spells ts (.declaration s)
  | declare {kw x semi : Token} : kw.kind = .kwLet → x.kind = .identifier → semi.kind = .semicolon →
      Spells [kw, x, semi] (.declaration (.declare x.text x.line none semi.line))
  | declareWith {kw x eq semi : Token} {ts : List Token} {e : Term} :
    kw.kind = .kwLet → x.kind = .identifier → eq.kind = .equal → Derives ts (.expr .assignment e) →
    semi.kind = .semicolon →
    Spells (kw :: x :: eq :: ts ++ [semi])
      (.declaration (.declare x.text x.line (some e) semi.line))
  | function {kw x lp rp lb rb : Token} {ts : List Token} {ss : List Clause} (site : Nat) :
      kw.kind = .kwFun → x.kind = .identifier → lp.kind = .leftParen → rp.kind = .rightParen →
      lb.kind = .leftBrace → Spells ts (.sequence ss) → rb.kind = .rightBrace →
      Spells (kw :: x :: lp :: rp :: lb :: ts ++ [rb])
        (.declaration (.function site x.text [] ss rb.line))
  | functionWith {kw x lp rp lb rb : Token} {us ts : List Token} {parameters : List String}
      {ss : List Clause} (site : Nat) :
      kw.kind = .kwFun → x.kind = .identifier → lp.kind = .leftParen → Parameters us parameters →
      rp.kind = .rightParen → lb.kind = .leftBrace → Spells ts (.sequence ss) →
      rb.kind = .rightBrace →
      Spells (kw :: x :: lp :: us ++ rp :: lb :: ts ++ [rb])
        (.declaration (.function site x.text parameters ss rb.line))
  | none : Spells [] (.sequence [])
  | more {ts us : List Token} {s : Clause} {ss : List Clause} : Spells ts (.declaration s) →
      Spells us (.sequence ss) → Spells (ts ++ us) (.sequence (s :: ss))

/-- The tokens of a script, with the end token last, spell a script. -/
def Script.Spelled (s : Script) (tokens : List Token) : Prop :=
  ∃ ts t, tokens = ts ++ [t] ∧ t.kind = .eof ∧ t.line = s.lastLine ∧ Spells ts (.sequence s.body)

/-! ## First tokens -/

namespace TokenKind

/-- The tokens with which an expression can begin. -/
def startsTerm : TokenKind → Bool
  | .kwNil | .kwTrue | .kwFalse | .number | .string | .identifier | .leftParen | .minus
  | .bang => true
  | _ => false

/-- The tokens with which a statement can begin. -/
def startsClause : TokenKind → Bool
  | .kwPrint | .kwIf | .kwWhile | .kwReturn | .kwYield | .kwEnd | .leftBrace => true
  | k => k.startsTerm

/-- The tokens with which a declaration can begin. -/
def startsDeclaration : TokenKind → Bool
  | .kwLet | .kwFun => true
  | k => k.startsClause

/-- What starts an expression starts a statement. -/
theorem startsClause_of_startsTerm {k : TokenKind} (h : k.startsTerm = true) :
    k.startsClause = true := by
  cases k <;> simp [startsTerm] at h <;> rfl

/-- What starts a statement starts a declaration. -/
theorem startsDeclaration_of_startsClause {k : TokenKind} (h : k.startsClause = true) :
    k.startsDeclaration = true := by
  cases k <;> simp [startsClause, startsTerm] at h <;> rfl

end TokenKind

theorem UnaryAt.startsTerm {k : TokenKind} {op : UnaryOp} (h : UnaryAt k op) :
    k.startsTerm = true := by
  cases h <;> rfl

/-- Every expression begins with a token of its own. -/
theorem Derives.head {ts : List Token} {φ : Phrase} (h : Derives ts φ) :
    ∃ t us, ts = t :: us ∧ t.kind.startsTerm = true := by
  induction h with
  | nil h | yes h | no h | number h | string h | name h => exact ⟨_, _, rfl, by rw [h]; rfl⟩
  | group h _ _ _ => exact ⟨_, _, rfl, by rw [h]; rfl⟩
  | unary h _ _ => exact ⟨_, _, rfl, h.startsTerm⟩
  | assign h _ _ _ | assignMember h _ _ _ _ _ => exact ⟨_, _, rfl, by rw [h]; rfl⟩
  | member _ _ _ ih | call _ _ _ ih | callWith _ _ _ _ ih _ | binary _ _ _ ih _ | more _ _ _ ih _ =>
    obtain ⟨t, us, rfl, ht⟩ := ih
    exact ⟨t, _, rfl, ht⟩
  | stronger _ ih | last _ ih => exact ih

/-- Every statement begins with a token of its own. -/
theorem Spells.head_statement {ts : List Token} {s : Clause} (h : Spells ts (.statement s)) :
    ∃ t us, ts = t :: us ∧ t.kind.startsClause = true := by
  cases h with
  | expr h _ =>
    obtain ⟨t, us, rfl, ht⟩ := h.head
    exact ⟨t, _, rfl, TokenKind.startsClause_of_startsTerm ht⟩
  | print h | ifThen h | ifElse h | loop h | ret h | retWith h | yield h | stop h | block h =>
    exact ⟨_, _, rfl, by rw [h]; rfl⟩

/-- A declaration starts with a token of one of the right kinds. -/
theorem Spells.head_declaration {ts : List Token} {s : Clause} (h : Spells ts (.declaration s)) :
    ∃ t us, ts = t :: us ∧ t.kind.startsDeclaration = true := by
  cases h with
  | ofStatement h =>
    obtain ⟨t, us, rfl, ht⟩ := h.head_statement
    exact ⟨t, us, rfl, TokenKind.startsDeclaration_of_startsClause ht⟩
  | declare h | declareWith h | function _ h | functionWith _ h => exact ⟨_, _, rfl, by rw [h]; rfl⟩

/-! ## Bad tokens -/

/-- The tokens that can stand in an expression. -/
def TokenKind.inTerm : TokenKind → Bool
  | .kwNil | .kwTrue | .kwFalse | .number | .string | .identifier => true
  | .leftParen | .rightParen | .comma | .dot | .minus | .plus | .slash | .star | .bang
  | .equal => true
  | .bangEqual | .equalEqual | .greater | .greaterEqual | .less | .lessEqual => true
  | _ => false

theorem UnaryAt.inTerm {k : TokenKind} {op : UnaryOp} (h : UnaryAt k op) : k.inTerm = true := by
  cases h <;> rfl

theorem BinaryAt.inTerm {level : Precedence} {k : TokenKind} {op : BinaryOp}
    (h : BinaryAt level k op) :
    k.inTerm = true := by
  cases h <;> rfl

/-- The tokens of an expression are of kinds that stand in expressions. -/
theorem Derives.inTerm {ts : List Token} {φ : Phrase} (h : Derives ts φ) :
    ∀ t ∈ ts, t.kind.inTerm = true := by
  induction h with
  | nil | yes | no | number | string | name => simp_all [TokenKind.inTerm]
  | group | member | call | callWith | assign | assignMember | stronger | last | more =>
    simp_all [or_imp, TokenKind.inTerm]
  | unary hop | binary _ hop =>
    have := hop.inTerm
    simp_all [or_imp]

/-- The tokens of parameters are names and commas. -/
theorem Parameters.inTerm {ts : List Token} {xs : List String} (h : Parameters ts xs) :
    ∀ t ∈ ts, t.kind.inTerm = true := by
  induction h with
  | last | more => simp_all [TokenKind.inTerm]

/-- Nothing is written with text that is no token. -/
theorem Derives.good {ts : List Token} {φ : Phrase} (h : Derives ts φ) (t : Token) (ht : t ∈ ts) :
    t.kind ≠ .error := by
  intro hk
  have hin := h.inTerm t ht
  rw [hk] at hin
  cases hin

/-- No token of a list of parameters is an error. -/
theorem Parameters.good {ts : List Token} {xs : List String} (h : Parameters ts xs) (t : Token)
    (ht : t ∈ ts) :
    t.kind ≠ .error := by
  intro hk
  have hin := h.inTerm t ht
  rw [hk] at hin
  cases hin

/-- Nothing that the grammar spells has bad text in it. -/
theorem Spells.good {ts : List Token} {σ : Sentence} (h : Spells ts σ) :
    ∀ t ∈ ts, t.kind ≠ .error := by
  induction h with
  | ret | yield | stop | block | ofStatement | declare | function | none | more =>
    simp_all [or_imp]
  | expr hd | print _ hd | retWith _ hd | declareWith _ _ _ hd | ifThen _ _ hd | ifElse _ _ hd
  | loop _ _ hd =>
    have := hd.good
    simp_all [or_imp]
  | functionWith _ _ _ _ hp =>
    have := hp.good
    simp_all [or_imp]

/-- No token of a script is an error. -/
theorem Script.Spelled.good {s : Script} {tokens : List Token} (h : s.Spelled tokens) :
    ∀ t ∈ tokens, t.kind ≠ .error := by
  obtain ⟨ts, t, rfl, ht, -, hts⟩ := h
  intro u hu
  rcases List.mem_append.mp hu with hu | hu
  · exact hts.good u hu
  · rw [List.mem_singleton.mp hu, ht]
    decide

end EntityScript
