/-
# Reading ends

The readers call each other in turn, and their budgets go down with every call.  What carries the
argument is the number of tokens that are still to be taken (`ParseState.pending`): moving on takes
one, no reader gives one back, and wherever a reader calls itself again, directly or through others,
one has been taken.  So a budget of eight calls for each token, and a few more, always suffices:
with any such budget a reader gives the same result, and no budget runs out (`ExprEnds`,
`StmtEnds`).  A declaration takes at least one token, which is why scripts and blocks come to an
end.
-/
import EntityScript.Compile.Program
import EntityScript.Proofs.Compile.State

namespace EntityScript

namespace ParseState

/-- How many tokens are still to be taken: those from the current one on, except for an end token
that is the last. -/
def pending (p : ParseState) : Nat :=
  p.rest.length + if p.rest = [] ∧ p.current.kind = .eof then 0 else 1

/-- Going from one state to the other takes at least `k` tokens, as long as there are any, and no
budget runs out. -/
structure Goes (k : Nat) (p q : ParseState) : Prop where
  pending : q.pending ≤ p.pending - k
  exhausted : q.exhausted = p.exhausted

namespace Goes

variable {k : Nat} {p q r : ParseState}

theorem of_eq (hrest : q.rest = p.rest) (hcurrent : q.current = p.current)
    (hexhausted : q.exhausted = p.exhausted) :
    Goes 0 p q :=
  ⟨by rw [ParseState.pending, ParseState.pending, hrest, hcurrent]; omega, hexhausted⟩

theorem refl (p : ParseState) : Goes 0 p p :=
  .of_eq rfl rfl rfl

theorem trans (h : Goes k p q) (h' : Goes 0 q r) : Goes k p r :=
  ⟨by have := h.pending; have := h'.pending; omega, h'.exhausted.trans h.exhausted⟩

/-- Tokens that are taken later are taken. -/
theorem later (h : Goes 0 p q) (h' : Goes k q r) : Goes k p r :=
  ⟨by have := h.pending; have := h'.pending; omega, h'.exhausted.trans h.exhausted⟩

/-- It does not matter that tokens have been taken. -/
theorem keeps (h : Goes k p q) : Goes 0 p q :=
  ⟨by have := h.pending; omega, h.exhausted⟩

end Goes

/-- Before anything but the end there is something to take. -/
theorem pending_pos {p : ParseState} (h : p.current.kind ≠ .eof) : 0 < p.pending := by
  rw [pending, if_neg fun hend => h hend.2]
  omega

/-- Before a token of a kind other than the end there is something to take. -/
theorem pending_pos_of_at {p : ParseState} {kind : TokenKind} (h : p.at? kind = true)
    (hkind : kind ≠ .eof) :
    0 < p.pending := by
  have hcurrent : p.current.kind = kind := by simpa [at?] using h
  exact pending_pos (hcurrent ▸ hkind)

/-- Where nothing is to be taken the current token is the end. -/
theorem eof_of_pending {p : ParseState} (h : p.pending = 0) :
    p.rest = [] ∧ p.current.kind = .eof := by
  by_contra hend
  rw [pending, if_neg hend] at h
  omega

/-- The current token and the rest are all that can be taken. -/
theorem pending_le (p : ParseState) : p.pending ≤ p.rest.length + 1 := by
  rw [pending]
  split <;> omega

/-- Whatever the current token is, moving on leaves one less. -/
theorem length_rest_le (p : ParseState) : p.rest.length ≤ p.pending - 1 := by
  rw [pending]
  split
  · next hend => simp [hend.1]
  · omega

/-! ## Moves -/

/-- A complaint takes no token. -/
theorem goes_complainAt (p : ParseState) (t : Token) (c : Complaint) :
    Goes 0 p (p.complainAt t c) := by
  rw [complainAt]
  split
  · exact .refl p
  · exact .of_eq rfl rfl rfl

theorem goes_complain (p : ParseState) (c : Complaint) : Goes 0 p (p.complain c) :=
  goes_complainAt p _ c

/-- Shifting takes a token, and the bad ones before it. -/
theorem goes_shift (ts : List Token) (p : ParseState) :
    (shift ts p).pending ≤ ts.length ∧ (shift ts p).exhausted = p.exhausted := by
  induction ts generalizing p with
  | nil => exact ⟨by simp [shift, pending, Token.eof], rfl⟩
  | cons t ts ih =>
    rw [shift]
    split
    · obtain ⟨hpending, hexhausted⟩ := ih (p.complainAt t (.lexical t.text))
      exact ⟨by rw [List.length_cons]; omega, hexhausted.trans (goes_complainAt p t _).exhausted⟩
    · refine ⟨?_, rfl⟩
      rw [pending, List.length_cons]
      simp only
      split <;> omega

theorem goes_advance (p : ParseState) : Goes 1 p p.advance := by
  obtain ⟨hpending, hexhausted⟩ := goes_shift p.rest p
  exact ⟨Nat.le_trans hpending (length_rest_le p), hexhausted⟩

/-- An expected token is taken if it is there, and nothing is given back if not. -/
theorem goes_expect (p : ParseState) (kind : TokenKind) (what : String) :
    Goes 0 p (p.expect kind what) := by
  rw [expect]
  split
  · exact (goes_advance p).keeps
  · exact goes_complainAt p _ _

/-- Skipping gives no token back. -/
theorem goes_skip (ts : List Token) (p : ParseState) (hrest : p.rest = ts) :
    Goes 0 p (skip ts p) := by
  induction ts generalizing p with
  | nil =>
    rw [skip]
    split
    · exact .refl p
    · have hadvance := goes_advance p
      rw [advance, hrest] at hadvance
      exact hadvance.keeps
  | cons t ts ih =>
    rw [skip]
    -- behind the token there is one less to take, whatever has become current
    have hless {q : ParseState} (hq : q.rest = ts) (hexhausted : q.exhausted = p.exhausted) :
      Goes 0 p q := by
      refine ⟨?_, hexhausted⟩
      have hpending := length_rest_le p
      have hpending' := pending_le q
      rw [hrest, List.length_cons] at hpending
      rw [hq] at hpending'
      omega
    split
    · exact .refl p
    · split
      · have hpassed : Goes 0 p { p.complainAt t (.lexical t.text) with rest := ts } :=
          hless rfl (goes_complainAt p t _).exhausted
        exact hpassed.trans (ih _ rfl)
      · have hpassed : Goes 0 p { p with rest := ts, previous := p.current, current := t } :=
          hless rfl rfl
        exact hpassed.trans (ih _ rfl)

theorem goes_synchronize (p : ParseState) : Goes 0 p p.synchronize := by
  have hcalm : Goes 0 p { p with panicking := false } := .of_eq rfl rfl rfl
  exact hcalm.trans (goes_skip p.rest _ rfl)

theorem goes_withContext (p : ParseState) (c : Context) :
    Goes 0 p (p.withContext c) := .of_eq rfl rfl rfl

theorem goes_addLiteral (p : ParseState) (l : Literal) : Goes 0 p (p.addLiteral l).2 := by
  rw [addLiteral_def]
  split
  · exact goes_withContext p _
  · exact (goes_withContext p _).trans (goes_complain _ _)

theorem goes_nameLiteral (p : ParseState) (x : String) : Goes 0 p (p.nameLiteral x).2 := by
  rw [nameLiteral]
  split
  · exact .refl p
  · exact goes_addLiteral p _

/-- Declaring a variable looks at no token, whichever way it ends. -/
theorem goes_declare (p : ParseState) (x : String) : Goes 0 p (p.declare x) := by
  rw [declare]
  split
  · exact .refl p
  · have hcomplained : Goes 0 p (if p.scope.declares x then p.complain .duplicateLocal else p) := by
      split
      · exact goes_complain p _
      · exact .refl p
    simp only
    generalize (if p.scope.declares x then p.complain .duplicateLocal else p) = q at hcomplained ⊢
    split
    · next scope _ =>
      have hadded : Goes 0 q { q with scope := scope } := .of_eq rfl rfl rfl
      exact hcomplained.trans hadded
    · exact hcomplained.trans (goes_complain q _)

theorem goes_settle (p : ParseState) : Goes 0 p p.settle := by
  rw [settle_eq]
  exact goes_withContext p _

theorem goes_define (p : ParseState) (x : String) : Goes 0 p (p.define x).2 := by
  rw [define]
  split
  · have hadded : Goes 0 (p.nameLiteral x).2 ((p.nameLiteral x).2.addGlobal x) := .of_eq rfl rfl rfl
    exact (goes_nameLiteral p x).trans hadded
  · exact goes_settle p

theorem goes_resolve (p : ParseState) (x : String) : Goes 0 p (p.resolve x).2 := by
  rw [resolve]
  split
  · split
    · exact .refl p
    · exact goes_complain p _
  · split
    · exact goes_nameLiteral p x
    · exact goes_complain p _

theorem goes_readNumber (p : ParseState) : Goes 0 p p.readNumber.2 := by
  rw [readNumber]
  split
  · exact goes_addLiteral p _
  · exact goes_addLiteral p _
  · exact goes_complain p _

theorem goes_readString (p : ParseState) : Goes 0 p p.readString.2 :=
  goes_addLiteral p (.string (unquote p.previous.text))

theorem goes_readMember (p : ParseState) : Goes 0 p p.readMember.2 := by
  have hexpect := goes_expect p .identifier "member name after '.'"
  rw [readMember]
  split
  · split
    · exact hexpect
    · exact hexpect.trans (goes_complain _ _)
  · exact hexpect

/-! ## Expressions -/

/-- Both budgets allow eight calls for each token, and `c` more. -/
structure Suffice (c m n : Nat) (p : ParseState) : Prop where
  left : 8 * p.pending + c ≤ m
  right : 8 * p.pending + c ≤ n

namespace Suffice

variable {c d k m n : Nat} {p q : ParseState}

/-- What is left of the budgets suffices for a call that needs less. -/
theorem call (h : Suffice c (m + 1) (n + 1) p) (hgoes : Goes k p q) (hd : d < c) :
    Suffice d m n q := by
  have hpending := hgoes.pending
  exact ⟨by have := h.left; omega, by have := h.right; omega⟩

theorem same (h : Suffice c m n p) (hgoes : Goes k p q) : Suffice c m n q := by
  have hpending := hgoes.pending
  exact ⟨by have := h.left; omega, by have := h.right; omega⟩

/-- Behind a token that has been taken, it suffices for every call. -/
theorem take (h : Suffice c (m + 1) (n + 1) p) (hpos : 0 < p.pending) (hgoes : Goes 1 p q)
    (hd : d < c + 8) :
    Suffice d m n q := by
  have hpending := hgoes.pending
  exact ⟨by have := h.left; omega, by have := h.right; omega⟩

end Suffice

/-- With two budgets that suffice the same expressions are read, and neither runs out. -/
structure ExprEnds (m n : Nat) : Prop where
  expr : ∀ least p, Suffice 2 m n p →
    readExpr m least p = readExpr n least p ∧ Goes 1 p (readExpr n least p).2
  operand : ∀ assignable p, Suffice 3 m n p →
    readOperand m assignable p = readOperand n assignable p ∧
    Goes 0 p (readOperand n assignable p).2
  name : ∀ assignable p, Suffice 1 m n p →
    readName m assignable p = readName n assignable p ∧ Goes 0 p (readName n assignable p).2
  suffixes : ∀ least e p, Suffice 1 m n p →
    readSuffixes m least e p = readSuffixes n least e p ∧ Goes 0 p (readSuffixes n least e p).2
  suffix : ∀ s e p, Suffice 4 m n p → readSuffix m s e p = readSuffix n s e p ∧
    Goes 0 p (readSuffix n s e p).2
  arguments : ∀ read p, Suffice 3 m n p →
    readArguments m read p = readArguments n read p ∧ Goes 0 p (readArguments n read p).2

namespace ExprEnds

variable {m n : Nat}

/-- Behind the end no operand starts. -/
theorem readOperand_end {p : ParseState} (h : p.previous.kind = .eof) (n : Nat)
    (assignable : Bool) :
    readOperand (n + 1) assignable p = (none, p) := by
  rw [readOperand, h]

/-- An expression takes at least its first token; with what is left of the budget the operand and
the suffixes can be read. -/
theorem succ_expr (ih : ExprEnds m n) (least : Precedence) (p : ParseState)
    (h : Suffice 2 (m + 1) (n + 1) p) :
    readExpr (m + 1) least p = readExpr (n + 1) least p ∧
    Goes 1 p (readExpr (n + 1) least p).2 := by
  have ha := goes_advance p
  rw [readExpr, readExpr]
  simp only
  by_cases hend : p.pending = 0
  · -- nothing is left to be taken, so the token read last is the end and no operand starts
    obtain ⟨hrest, heof⟩ := eof_of_pending hend
    have hprevious : p.advance.previous.kind = .eof := by rw [advance, hrest, shift, heof]
    obtain ⟨m, rfl⟩ : ∃ m', m = m' + 1 := ⟨m - 1, by have := h.left; omega⟩
    obtain ⟨n, rfl⟩ : ∃ n', n = n' + 1 := ⟨n - 1, by have := h.right; omega⟩
    rw [readOperand_end hprevious, readOperand_end hprevious]
    exact ⟨rfl, ha.trans (goes_complain _ _)⟩
  · obtain ⟨hoperand, hgoes⟩ := ih.operand (least.rank ≤ Precedence.assignment.rank) p.advance
      (h.take (Nat.pos_of_ne_zero hend) ha (by omega))
    rw [hoperand]
    generalize readOperand n (least.rank ≤ Precedence.assignment.rank) p.advance = r at hgoes ⊢
    obtain ⟨_ | e, q⟩ := r
    · exact ⟨rfl, (ha.trans hgoes).trans (goes_complain _ _)⟩
    · obtain ⟨hsuffixes, hgoes'⟩ := ih.suffixes least e q
        (h.take (Nat.pos_of_ne_zero hend) (ha.trans hgoes) (by omega))
      have hq := (ha.trans hgoes).trans hgoes'
      simp only [hsuffixes]
      refine ⟨trivial, ?_⟩
      split
      · exact (hq.trans (goes_advance _).keeps).trans (goes_complain _ _)
      · exact hq

/-- The first token of an operand has been taken already. -/
theorem succ_operand (ih : ExprEnds m n) (assignable : Bool) (p : ParseState)
    (h : Suffice 3 (m + 1) (n + 1) p) :
    readOperand (m + 1) assignable p = readOperand (n + 1) assignable p ∧
      Goes 0 p (readOperand (n + 1) assignable p).2 := by
  obtain ⟨hassignment, hgoes⟩ := ih.expr .assignment p (h.call (.refl p) (by omega))
  obtain ⟨hunary, hgoes'⟩ := ih.expr .unary p (h.call (.refl p) (by omega))
  obtain ⟨hname, hgoes''⟩ := ih.name assignable p (h.call (.refl p) (by omega))
  rw [readOperand, readOperand, hassignment, hunary, hname]
  refine ⟨rfl, ?_⟩
  split
  · exact goes_readNumber p
  · exact goes_readString p
  · exact .refl p
  · exact .refl p
  · exact .refl p
  · exact hgoes''
  · exact hgoes.keeps.trans (goes_expect _ _ _)
  · exact hgoes'.keeps
  · exact hgoes'.keeps
  · exact .refl p

/-- A name may be followed by an assignment, whose value is read behind the sign. -/
theorem succ_name (ih : ExprEnds m n) (assignable : Bool) (p : ParseState)
    (h : Suffice 1 (m + 1) (n + 1) p) :
    readName (m + 1) assignable p = readName (n + 1) assignable p ∧
    Goes 0 p (readName (n + 1) assignable p).2 := by
  have hresolve := goes_resolve p p.previous.text
  -- the value after an equals sign
  have hvalue {q : ParseState} (hq : Goes 0 p q) (hat : q.at? .equal = true) :
      readExpr m .assignment q.advance = readExpr n .assignment q.advance ∧
        Goes 0 p (readExpr n .assignment q.advance).2 := by
    have hpos : 0 < p.pending := Nat.lt_of_lt_of_le (pending_pos_of_at hat (by decide)) hq.pending
    have hadvance := hq.later (goes_advance q)
    obtain ⟨hread, hgoes⟩ := ih.expr .assignment q.advance (h.take hpos hadvance (by omega))
    exact ⟨hread, hadvance.keeps.trans hgoes.keeps⟩
  rw [readName, readName]
  generalize p.resolve p.previous.text = r at hresolve ⊢
  obtain ⟨_ | v, q⟩ := r
  · exact ⟨rfl, hresolve⟩
  · simp only
    by_cases hequal : (assignable && q.at? .equal) = true
    · obtain ⟨hread, hgoes⟩ := hvalue hresolve (Bool.and_eq_true_iff.mp hequal).2
      rw [if_pos hequal, if_pos hequal, hread]
      exact ⟨rfl, hgoes⟩
    · rw [if_neg hequal, if_neg hequal]
      by_cases hdot : (assignable && q.at? .dot) = true
      · rw [if_pos hdot, if_pos hdot]
        have hmember := (hresolve.trans (goes_advance q).keeps).trans (goes_readMember q.advance)
        generalize q.advance.readMember = r at hmember ⊢
        obtain ⟨_ | member, q'⟩ := r
        · exact ⟨rfl, hmember⟩
        · simp only
          by_cases hequal' : q'.at? .equal = true
          · obtain ⟨hread, hgoes⟩ := hvalue hmember hequal'
            rw [if_pos hequal', if_pos hequal', hread]
            exact ⟨rfl, hgoes⟩
          · rw [if_neg hequal', if_neg hequal']
            exact ⟨rfl, hmember⟩
      · rw [if_neg hdot, if_neg hdot]
        exact ⟨rfl, hresolve⟩

/-- Only the end token is followed by no other one. -/
theorem pending_pos_of_suffix {p : ParseState} {s : Suffix} (h : p.current.kind.suffix? = some s) :
    0 < p.pending := by
  refine pending_pos fun heof => ?_
  rw [heof] at h
  cases h

/-- Each suffix takes a token before the next one is looked for. -/
theorem succ_suffixes (ih : ExprEnds m n) (least : Precedence) (e : Expr) (p : ParseState)
    (h : Suffice 1 (m + 1) (n + 1) p) :
    readSuffixes (m + 1) least e p = readSuffixes (n + 1) least e p ∧
      Goes 0 p (readSuffixes (n + 1) least e p).2 := by
  rw [readSuffixes, readSuffixes]
  cases hs : p.current.kind.suffix? with
  | none => exact ⟨rfl, .refl p⟩
  | some s =>
    simp only
    split
    · exact ⟨rfl, .refl p⟩
    · have hpos := pending_pos_of_suffix hs
      have ha := goes_advance p
      obtain ⟨hsuffix, hgoes⟩ := ih.suffix s e p.advance (h.take hpos ha (by omega))
      rw [hsuffix]
      obtain ⟨hsuffixes, hgoes'⟩ := ih.suffixes least (readSuffix n s e p.advance).1
        (readSuffix n s e p.advance).2 (h.take hpos (ha.trans hgoes) (by omega))
      exact ⟨hsuffixes, ((ha.trans hgoes).trans hgoes').keeps⟩

/-- A suffix starts behind its own token. -/
theorem succ_suffix (ih : ExprEnds m n) (s : Suffix) (e : Expr) (p : ParseState)
    (h : Suffice 4 (m + 1) (n + 1) p) :
    readSuffix (m + 1) s e p = readSuffix (n + 1) s e p ∧
    Goes 0 p (readSuffix (n + 1) s e p).2 := by
  cases s with
  | call =>
    obtain ⟨harguments, hgoes⟩ := ih.arguments [] p (h.call (.refl p) (by omega))
    rw [readSuffix, readSuffix, harguments]
    refine ⟨rfl, ?_⟩
    have hread : Goes 0 p (if p.at? .rightParen then ([], p) else readArguments n [] p).2 := by
      split
      · exact .refl p
      · exact hgoes
    exact hread.trans (goes_expect _ _ _)
  | member =>
    have hmember := goes_readMember p
    rw [readSuffix, readSuffix]
    refine ⟨rfl, ?_⟩
    generalize p.readMember = r at hmember ⊢
    obtain ⟨_ | member, q⟩ := r <;> exact hmember
  | logical strength =>
    have hcomplain := goes_complain p .logicalOperator
    obtain ⟨hread, hgoes⟩ := ih.expr strength.next (p.complain .logicalOperator)
      (h.call hcomplain (by omega))
    rw [readSuffix, readSuffix, hread]
    exact ⟨rfl, hcomplain.trans hgoes.keeps⟩
  | operator op strength =>
    obtain ⟨hread, hgoes⟩ := ih.expr strength.next p (h.call (.refl p) (by omega))
    rw [readSuffix, readSuffix, hread]
    exact ⟨rfl, hgoes.keeps⟩

/-- An argument takes a token, so the arguments after it have budget enough. -/
theorem succ_arguments (ih : ExprEnds m n) (read : List Expr) (p : ParseState)
    (h : Suffice 3 (m + 1) (n + 1) p) :
    readArguments (m + 1) read p = readArguments (n + 1) read p ∧
    Goes 0 p (readArguments (n + 1) read p).2 := by
  obtain ⟨hread, hgoes⟩ := ih.expr .assignment p (h.call (.refl p) (by omega))
  have hlimit : Goes 0 p (if read.length = maxArguments
      then (readExpr n .assignment p).2.complain
      .tooManyArguments else (readExpr n .assignment p).2) := by
    split
    · exact hgoes.keeps.trans (goes_complain _ _)
    · exact hgoes.keeps
  rw [readArguments, readArguments, hread]
  simp only
  generalize (if read.length = maxArguments then (readExpr n .assignment p).2.complain
    .tooManyArguments else (readExpr n .assignment p).2) = q at hlimit ⊢
  by_cases hcomma : q.at? .comma = true
  · have hpos : 0 < p.pending := Nat.lt_of_lt_of_le (pending_pos_of_at hcomma (by decide))
      hlimit.pending
    have hadvance := hlimit.later (goes_advance q)
    obtain ⟨harguments, hgoes'⟩ := ih.arguments ((readExpr n .assignment p).1 :: read) q.advance
      (h.take hpos hadvance (by omega))
    rw [if_pos hcomma, if_pos hcomma]
    exact ⟨harguments, hadvance.keeps.trans hgoes'⟩
  · rw [if_neg hcomma, if_neg hcomma]
    exact ⟨rfl, hlimit⟩

end ExprEnds

/-- With budgets that suffice the parts of an expression are read to the same end. -/
theorem exprEnds (m n : Nat) : ExprEnds m n := by
  induction n generalizing m with
  | zero =>
    constructor <;> intros <;> exact absurd ‹Suffice _ m 0 _›.right (by omega)
  | succ n ih =>
    cases m with
    | zero => constructor <;> intros <;> exact absurd ‹Suffice _ 0 _ _›.left (by omega)
    | succ m =>
      exact ⟨(ih m).succ_expr, (ih m).succ_operand, (ih m).succ_name, (ih m).succ_suffixes,
        (ih m).succ_suffix, (ih m).succ_arguments⟩

/-! ## Statements -/

theorem goes_checkJump (p : ParseState) (offset : Nat) : Goes 0 p (p.checkJump offset) := by
  rw [checkJump]
  split
  · exact goes_complain p _
  · exact .refl p

theorem goes_checkLoop (p : ParseState) (offset : Nat) : Goes 0 p (p.checkLoop offset) := by
  rw [checkLoop]
  split
  · exact goes_complain p _
  · exact .refl p

/-- The literal of a function is made without a look at the tokens. -/
theorem goes_closeFunction (p outer : ParseState) (name : String) (arity : Nat) (body : Block) :
    Goes 0 p (p.closeFunction outer name arity body).2 := by
  have hclosed : Goes 0 p { p with
      scope := outer.scope, literals := outer.literals, serial := p.serial + 1 } :=
        .of_eq rfl rfl rfl
  exact hclosed.trans (goes_addLiteral _ _)

section

variable {m n : Nat} {p : ParseState}

theorem readExpr_ends (h : Suffice 2 m n p) (least : Precedence) :
    p.readExpr m least = p.readExpr n least ∧ Goes 1 p (p.readExpr n least).2 :=
  (exprEnds m n).expr least p h

/-- A condition stands between tokens that give nothing back. -/
theorem readCondition_ends (h : Suffice 2 m n p) (word : String) :
    p.readCondition m word = p.readCondition n word ∧ Goes 0 p (p.readCondition n word).2 := by
  have hopen := goes_expect p .leftParen ("'(' after '" ++ word ++ "'")
  obtain ⟨hread, hgoes⟩ := readExpr_ends (h.same hopen) .assignment
  rw [readCondition, readCondition, hread]
  exact ⟨rfl, (hopen.trans hgoes.keeps).trans (goes_expect _ _ _)⟩

/-- A declaration is read alike with both budgets, whether it has a value or not. -/
theorem readLet_ends (h : Suffice 2 m n p) : p.readLet m = p.readLet n ∧
    Goes 0 p (p.readLet n).2 := by
  have hname := goes_expect p .identifier "variable name"
  rw [readLet, readLet]
  generalize p.expect .identifier "variable name" = q at hname ⊢
  have hdeclared := hname.trans (goes_declare q q.previous.text)
  generalize q.declare q.previous.text = d at hdeclared ⊢
  have hadvance := hdeclared.trans (goes_advance d).keeps
  obtain ⟨hread, hgoes⟩ := readExpr_ends (h.same hadvance) .assignment
  simp only [hread]
  have hinit : Goes 0 p (if d.at? .equal then d.advance.readExpr n
    .assignment else (.nil d.line, d)).2 := by
    split
    · exact hadvance.trans hgoes.keeps
    · exact hdeclared
  exact ⟨trivial, (hinit.trans (goes_expect _ _ _)).trans (goes_define _ _)⟩

theorem readReturn_ends (h : Suffice 2 m n p) : p.readReturn m = p.readReturn n ∧
    Goes 0 p (p.readReturn n).2 := by
  obtain ⟨hread, hgoes⟩ := readExpr_ends h .assignment
  rw [readReturn, readReturn, hread]
  refine ⟨rfl, ?_⟩
  split
  · exact (goes_advance p).keeps
  · exact hgoes.keeps.trans (goes_expect _ _ _)

/-- Every parameter but the first comes behind a comma, which is taken. -/
theorem readParameters_ends (h : Suffice 1 m n p) (read : List String) :
    p.readParameters m read = p.readParameters n read ∧ Goes 0 p (p.readParameters n read).2 := by
  induction n generalizing m read p with
  | zero => exact absurd h.right (by omega)
  | succ n ih =>
    obtain ⟨m, rfl⟩ : ∃ m', m = m' + 1 := ⟨m - 1, by have := h.left; omega⟩
    have hlimit : Goes 0 p (if read.length =
      maxArguments then p.complainAt p.current .tooManyParameters else p) := by
      split
      · exact goes_complainAt p _ _
      · exact .refl p
    rw [readParameters, readParameters]
    generalize (if read.length = maxArguments then p.complainAt p.current
      .tooManyParameters else p) = q at hlimit ⊢
    have hname := hlimit.trans (goes_expect q .identifier "parameter name")
    generalize q.expect .identifier "parameter name" = d at hname ⊢
    have hdeclared := (hname.trans (goes_declare d d.previous.text)).trans (goes_settle _)
    generalize (d.declare d.previous.text).settle = e at hdeclared ⊢
    by_cases hcomma : e.at? .comma = true
    · have hpos : 0 < p.pending := Nat.lt_of_lt_of_le (pending_pos_of_at hcomma (by decide))
        hdeclared.pending
      have hadvance := hdeclared.later (goes_advance e)
      obtain ⟨hread, hgoes⟩ := ih (h.take hpos hadvance (by omega)) (d.previous.text :: read)
      rw [if_pos hcomma, if_pos hcomma]
      exact ⟨hread, hadvance.keeps.trans hgoes⟩
    · rw [if_neg hcomma, if_neg hcomma]
      exact ⟨rfl, hdeclared⟩

end

/-- With two budgets that suffice the same statements are read, and neither runs out.  A declaration
takes a token. -/
structure StmtEnds (m n : Nat) : Prop where
  declaration : ∀ p, Suffice 4 m n p →
    readDeclaration m p = readDeclaration n p ∧ Goes 1 p (readDeclaration n p).2
  function : ∀ p, Suffice 6 m n p → readFunction m p = readFunction n p ∧
    Goes 0 p (readFunction n p).2
  statement : ∀ p, Suffice 3 m n p → readStatement m p = readStatement n p ∧
    Goes 1 p (readStatement n p).2
  ifThen : ∀ p, Suffice 4 m n p → readIf m p = readIf n p ∧ Goes 0 p (readIf n p).2
  loop : ∀ p, Suffice 4 m n p → readWhile m p = readWhile n p ∧ Goes 0 p (readWhile n p).2
  block : ∀ read p, Suffice 5 m n p → readBlock m read p = readBlock n read p ∧
    Goes 0 p (readBlock n read p).2

namespace StmtEnds

variable {m n : Nat}

/-- A declaration takes at least one token, also if what stands there is wrong. -/
theorem succ_declaration (ih : StmtEnds m n) (p : ParseState) (h : Suffice 4 (m + 1) (n + 1) p) :
    readDeclaration (m + 1) p = readDeclaration (n + 1) p ∧
    Goes 1 p (readDeclaration (n + 1) p).2 := by
  have ha := goes_advance p
  have hread : (if p.at? .kwFun then readFunction m p.advance
        else if p.at? .kwLet then p.advance.readLet m else readStatement m p) =
      (if p.at? .kwFun then readFunction n p.advance
        else if p.at? .kwLet then p.advance.readLet n else readStatement n p) ∧
      Goes 1 p (if p.at? .kwFun then readFunction n p.advance
        else if p.at? .kwLet then p.advance.readLet n else readStatement n p).2 := by
    by_cases hfun : p.at? .kwFun = true
    · obtain ⟨hfunction, hgoes⟩ := ih.function p.advance
        (h.take (pending_pos_of_at hfun (by decide)) ha (by omega))
      rw [if_pos hfun, if_pos hfun]
      exact ⟨hfunction, ha.trans hgoes⟩
    · rw [if_neg hfun, if_neg hfun]
      by_cases hlet : p.at? .kwLet = true
      · obtain ⟨hlet', hgoes⟩ := readLet_ends
          (h.take (pending_pos_of_at hlet (by decide)) ha (by omega))
        rw [if_pos hlet, if_pos hlet]
        exact ⟨hlet', ha.trans hgoes⟩
      · rw [if_neg hlet, if_neg hlet]
        exact ih.statement p (h.call (.refl p) (by omega))
  obtain ⟨hread, hgoes⟩ := hread
  rw [readDeclaration, readDeclaration, hread]
  refine ⟨rfl, ?_⟩
  generalize (if p.at? .kwFun then readFunction n p.advance
    else if p.at? .kwLet then p.advance.readLet n else readStatement n p) = r at hgoes ⊢
  simp only
  split
  · exact hgoes.trans (goes_synchronize _)
  · exact hgoes

/-- The body of a function is read behind its parameters. -/
theorem succ_function (ih : StmtEnds m n) (p : ParseState) (h : Suffice 6 (m + 1) (n + 1) p) :
    readFunction (m + 1) p = readFunction (n + 1) p ∧ Goes 0 p (readFunction (n + 1) p).2 := by
  have hname := goes_expect p .identifier "function name"
  rw [readFunction, readFunction]
  generalize p.expect .identifier "function name" = q at hname ⊢
  have houter : Goes 0 p (if q.scope.depth = 0 then q.addGlobal q.previous.text
      else (q.declare q.previous.text).settle) := by
    split
    · exact hname.trans (.of_eq rfl rfl rfl)
    · exact (hname.trans (goes_declare _ _)).trans (goes_settle _)
  simp only
  generalize (if q.scope.depth = 0 then q.addGlobal
    q.previous.text else (q.declare q.previous.text).settle) = outer
    at houter ⊢
  have hinner : Goes 0 outer outer.openFunction := .of_eq rfl rfl rfl
  have hopen := (houter.trans hinner).trans (goes_expect _ .leftParen "'(' after function name")
  generalize outer.openFunction.expect .leftParen "'(' after function name" = q' at hopen ⊢
  obtain ⟨hparameters, hgoes⟩ := readParameters_ends (h.call hopen (by omega)) []
  rw [hparameters]
  have hread : Goes 0 p (if q'.at? .rightParen then ([], q') else q'.readParameters n []).2 := by
    split
    · exact hopen
    · exact hopen.trans hgoes
  generalize (if q'.at? .rightParen then ([], q') else q'.readParameters n []) = r at hread ⊢
  have hbrace := (hread.trans (goes_expect _ .rightParen "')' after parameters")).trans
    (goes_expect _ .leftBrace "'\x7b' before function body")
  obtain ⟨hblock, hgoes'⟩ := ih.block .empty _ (h.call hbrace (by omega))
  rw [hblock]
  exact ⟨rfl, ((hbrace.trans hgoes').trans (goes_closeFunction _ _ _ _ _)).trans (goes_define _ _)⟩

/-- A statement takes at least one token, as an expression statement does. -/
theorem succ_statement (ih : StmtEnds m n) (p : ParseState) (h : Suffice 3 (m + 1) (n + 1) p) :
    readStatement (m + 1) p = readStatement (n + 1) p ∧ Goes 1 p (readStatement (n + 1) p).2 := by
  have ha := goes_advance p
  -- behind the word that a statement begins with
  have htaken {c : Nat} (hc : c < 11) (hpos : p.current.kind ≠ .eof) : Suffice c m n p.advance :=
    h.take (pending_pos hpos) ha hc
  rw [readStatement, readStatement]
  cases hkind : p.current.kind
  case kwPrint =>
    obtain ⟨hread, hgoes⟩ := readExpr_ends (htaken (by omega) (by simp [hkind])) .assignment
    simp only [hread]
    exact ⟨trivial, (ha.trans hgoes.keeps).trans (goes_expect _ _ _)⟩
  case kwIf =>
    obtain ⟨hread, hgoes⟩ := ih.ifThen p.advance (htaken (by omega) (by simp [hkind]))
    exact ⟨hread, ha.trans hgoes⟩
  case kwWhile =>
    obtain ⟨hread, hgoes⟩ := ih.loop p.advance (htaken (by omega) (by simp [hkind]))
    exact ⟨hread, ha.trans hgoes⟩
  case kwReturn =>
    obtain ⟨hread, hgoes⟩ := readReturn_ends (htaken (by omega) (by simp [hkind]))
    exact ⟨hread, ha.trans hgoes⟩
  case kwYield => exact ⟨rfl, ha.trans (goes_expect _ _ _)⟩
  case kwEnd => exact ⟨rfl, ha.trans (goes_expect _ _ _)⟩
  case leftBrace =>
    have henter : Goes 1 p p.advance.enter := ha.trans (.of_eq rfl rfl rfl)
    have hpos : 0 < p.pending := pending_pos (by simp [hkind])
    obtain ⟨hread, hgoes⟩ := ih.block .empty p.advance.enter (h.take hpos henter (by omega))
    simp only [hread]
    exact ⟨trivial, (henter.trans hgoes).trans (.of_eq rfl rfl rfl)⟩
  all_goals
    obtain ⟨hread, hgoes⟩ := readExpr_ends (h.call (.refl p) (by omega)) .assignment
    simp only [hread]
    exact ⟨trivial, hgoes.trans (goes_expect _ _ _)⟩

/-- Both branches of a conditional are read behind its condition. -/
theorem succ_ifThen (ih : StmtEnds m n) (p : ParseState) (h : Suffice 4 (m + 1) (n + 1) p) :
    readIf (m + 1) p = readIf (n + 1) p ∧ Goes 0 p (readIf (n + 1) p).2 := by
  obtain ⟨hcondition, hgoes⟩ := readCondition_ends (h.call (.refl p) (by omega)) "if"
  rw [readIf, readIf, hcondition]
  generalize p.readCondition n "if" = c at hgoes ⊢
  obtain ⟨hbody, hgoes'⟩ := ih.statement c.2 (h.call hgoes (by omega))
  simp only [hbody]
  generalize readStatement n c.2 = b at hgoes' ⊢
  have hjump := (hgoes.trans hgoes'.keeps).trans (goes_checkJump b.2 (skipBody b.1))
  generalize b.2.checkJump (skipBody b.1) = q at hjump ⊢
  by_cases helse : q.at? .kwElse = true
  · have hadvance := hjump.trans (goes_advance q).keeps
    obtain ⟨hother, hgoes''⟩ := ih.statement q.advance (h.call hadvance (by omega))
    rw [if_pos helse, if_pos helse, hother]
    exact ⟨rfl, (hadvance.trans hgoes''.keeps).trans (goes_checkJump _ _)⟩
  · rw [if_neg helse, if_neg helse]
    exact ⟨rfl, hjump⟩

/-- The body of a loop is read behind its condition. -/
theorem succ_loop (ih : StmtEnds m n) (p : ParseState) (h : Suffice 4 (m + 1) (n + 1) p) :
    readWhile (m + 1) p = readWhile (n + 1) p ∧ Goes 0 p (readWhile (n + 1) p).2 := by
  obtain ⟨hcondition, hgoes⟩ := readCondition_ends (h.call (.refl p) (by omega)) "while"
  rw [readWhile, readWhile, hcondition]
  generalize p.readCondition n "while" = c at hgoes ⊢
  obtain ⟨hbody, hgoes'⟩ := ih.statement c.2 (h.call hgoes (by omega))
  simp only [hbody]
  exact ⟨trivial, ((hgoes.trans hgoes'.keeps).trans (goes_checkLoop _ _)).trans
    (goes_checkJump _ _)⟩

/-- The declarations of a block take a token each, so the block comes to an end. -/
theorem succ_block (ih : StmtEnds m n) (read : Block) (p : ParseState)
    (h : Suffice 5 (m + 1) (n + 1) p) :
    readBlock (m + 1) read p = readBlock (n + 1) read p ∧
    Goes 0 p (readBlock (n + 1) read p).2 := by
  rw [readBlock, readBlock]
  by_cases hend : (p.at? .rightBrace || p.at? .eof) = true
  · rw [if_pos hend, if_pos hend]
    exact ⟨rfl, goes_expect p _ _⟩
  · have heof : p.current.kind ≠ .eof := fun heof => hend (by simp [at?, heof])
    obtain ⟨hdeclaration, hgoes⟩ := ih.declaration p (h.call (.refl p) (by omega))
    rw [if_neg hend, if_neg hend, hdeclaration]
    obtain ⟨hblock, hgoes'⟩ := ih.block (read.append (readDeclaration n p).1)
      (readDeclaration n p).2 (h.take (pending_pos heof) hgoes (by omega))
    exact ⟨hblock, hgoes.keeps.trans hgoes'⟩

end StmtEnds

/-- With budgets that suffice statements are read to the same end. -/
theorem stmtEnds (m n : Nat) : StmtEnds m n := by
  induction n generalizing m with
  | zero =>
    constructor <;> intros <;> exact absurd ‹Suffice _ m 0 _›.right (by omega)
  | succ n ih =>
    cases m with
    | zero => constructor <;> intros <;> exact absurd ‹Suffice _ 0 _ _›.left (by omega)
    | succ m =>
      exact ⟨(ih m).succ_declaration, (ih m).succ_function, (ih m).succ_statement,
        (ih m).succ_ifThen, (ih m).succ_loop, (ih m).succ_block⟩

theorem readScript_ends {m n : Nat} {p : ParseState} (h : Suffice 5 m n p) (read : Block) :
    p.readScript m read = p.readScript n read ∧ Goes 0 p (p.readScript n read).2 := by
  induction n generalizing m read p with
  | zero => exact absurd h.right (by omega)
  | succ n ih =>
    obtain ⟨m, rfl⟩ : ∃ m', m = m' + 1 := ⟨m - 1, by have := h.left; omega⟩
    rw [readScript, readScript]
    by_cases hend : p.at? .eof = true
    · rw [if_pos hend, if_pos hend]
      exact ⟨rfl, (goes_advance p).keeps⟩
    · have heof : p.current.kind ≠ .eof := fun heof => hend (by simp [at?, heof])
      obtain ⟨hdeclaration, hgoes⟩ := (stmtEnds m n).declaration p (h.call (.refl p) (by omega))
      rw [if_neg hend, if_neg hend, hdeclaration]
      obtain ⟨hscript, hgoes'⟩ := ih (h.take (pending_pos heof) hgoes (by omega))
        (read.append (readDeclaration n p).1)
      exact ⟨hscript, hgoes.keeps.trans hgoes'⟩

theorem pending_start (unit : Nat) (globals : List String) (tokens : List Token) :
    (start unit globals tokens).advance.pending ≤ tokens.length :=
  (goes_shift tokens (start unit globals tokens)).1

/-- Reading any list of tokens ends.  The budget that is allowed, which is linear in their number,
does not run out, and all budgets of eight calls for each token and a few more give the same result.
Where a script or a block goes on, a declaration takes at least one token, and recovery gives none
back. -/
theorem reading_ends (unit : Nat) (globals : List String) (tokens : List Token) :
    (readTokens unit globals tokens).2.exhausted = false ∧
      (∀ n, 8 * tokens.length + 5 ≤ n →
        (start unit globals tokens).advance.readScript n .empty = readTokens unit globals tokens) ∧
      (∀ (p : ParseState) (n : Nat), 8 * p.pending + 4 ≤ n → p.current.kind ≠ .eof →
        (p.readDeclaration n).2.pending < p.pending ∧
        (p.readDeclaration n).2.exhausted = p.exhausted ∧
          ∀ m, n ≤ m → p.readDeclaration m = p.readDeclaration n) ∧
      ∀ p : ParseState, p.synchronize.pending ≤ p.pending := by
  have hstart := pending_start unit globals tokens
  have hbudget : readingBudget tokens = 8 * tokens.length + 16 := rfl
  refine ⟨?_, fun n hn => ?_, fun p n hn heof => ?_, fun p => (goes_synchronize p).pending⟩
  · have hsuffice : Suffice 5 (readingBudget tokens) (readingBudget tokens)
      (start unit globals tokens).advance :=
      ⟨by omega, by omega⟩
    obtain ⟨-, hgoes⟩ := readScript_ends hsuffice .empty
    exact hgoes.exhausted.trans (goes_advance _).exhausted
  · have hsuffice : Suffice 5 n (readingBudget tokens) (start unit globals tokens).advance :=
      ⟨by omega, by omega⟩
    exact (readScript_ends hsuffice .empty).1
  · have hpos := pending_pos heof
    obtain ⟨-, hgoes⟩ := (stmtEnds n n).declaration p ⟨hn, hn⟩
    have hpending := hgoes.pending
    refine ⟨by omega, hgoes.exhausted, fun m hm => ?_⟩
    exact ((stmtEnds m n).declaration p ⟨by omega, hn⟩).1

/-- A brace that is never closed, and bad text, without an end token. -/
def unclosed : List Token :=
  [⟨.leftBrace, "\x7b", 1⟩, ⟨.error, "?", 1⟩]

theorem reading_ends_unclosed :
    (readTokens 0 [] unclosed).2.exhausted = false ∧
      (start 0 [] unclosed).advance.readScript 1000 .empty = readTokens 0 [] unclosed ∧
      (start 0 [] unclosed).advance.pending = 2 ∧
      ((start 0 [] unclosed).advance.readDeclaration 20).2.pending < 2 := by
  obtain ⟨hexhausted, hscript, hdeclaration, -⟩ := reading_ends 0 [] unclosed
  have hpending : (start 0 [] unclosed).advance.pending = 2 := by decide
  have hbudget : 8 * (start 0 [] unclosed).advance.pending + 4 ≤ 20 :=
    Nat.le_of_eq (by rw [hpending])
  obtain ⟨hless, -⟩ := hdeclaration (start 0 [] unclosed).advance 20 hbudget (by decide)
  rw [hpending] at hless
  exact ⟨hexhausted, hscript 1000 (by decide), hpending, hless⟩

end ParseState

end EntityScript
