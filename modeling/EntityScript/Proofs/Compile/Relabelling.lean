/-
# Reading under other labels

Labels have no influence on what is read: every function of the compiler does under other labels
what it does under the given ones (`ExprRelabels`, `StmtRelabels`).  In particular the errors that
were found before have no influence on those that are found later.
-/
import EntityScript.Proofs.Compile.Relabel
import EntityScript.Proofs.Compile.State

namespace EntityScript

namespace ParseState

/-- The state under other labels. -/
def relabel (r : Relabel) (p : ParseState) : ParseState :=
  { p with
    rest := p.rest.map (Token.relabel r)
    previous := p.previous.relabel r
    current := p.current.relabel r
    literals := Literal.relabelAll r p.literals
    diagnostics := p.diagnostics.map (Diagnostic.relabel r) ++ r.earlier
    unit := r.unit p.unit }

variable {r : Relabel}

/-! ## Moves -/

@[simp] theorem at?_relabel (p : ParseState) (kind : TokenKind) :
    (p.relabel r).at? kind = p.at? kind := rfl

@[simp] theorem atBoundary_relabel (p : ParseState) : (p.relabel r).atBoundary = p.atBoundary := rfl

@[simp] theorem exhaust_relabel (p : ParseState) :
    (p.relabel r).exhaust = p.exhaust.relabel r := rfl

@[simp] theorem enter_relabel (p : ParseState) : (p.relabel r).enter = p.enter.relabel r := rfl

@[simp] theorem openFunction_relabel (p : ParseState) :
    (p.relabel r).openFunction = p.openFunction.relabel r := rfl

@[simp] theorem addGlobal_relabel (p : ParseState) (x : String) :
    (p.relabel r).addGlobal x = (p.addGlobal x).relabel r := rfl

@[simp] theorem leave_relabel (p : ParseState) :
    (p.relabel r).leave = p.leave.map id (relabel r) := rfl

/-- A complaint is recorded on the other line, or not at all where there is panic. -/
theorem complainAt_relabel (p : ParseState) (t : Token) (c : Complaint) :
    (p.relabel r).complainAt (t.relabel r) c = (p.complainAt t c).relabel r := by
  have hpanicking : (p.relabel r).panicking = p.panicking := rfl
  rw [complainAt, complainAt, hpanicking]
  split <;> rfl

@[simp] theorem complain_relabel (p : ParseState) (c : Complaint) :
    (p.relabel r).complain c = (p.complain c).relabel r :=
  complainAt_relabel p p.previous c

/-- Shifting looks at the kinds of tokens, and complains on their lines. -/
theorem shift_relabel (ts : List Token) (p : ParseState) :
    shift (ts.map (Token.relabel r)) (p.relabel r) = (shift ts p).relabel r := by
  induction ts generalizing p with
  | nil => rfl
  | cons t ts ih =>
    have hkind : (t.relabel r).kind = t.kind := rfl
    rw [List.map_cons, shift, shift, hkind]
    split
    · rw [← ih, ← complainAt_relabel]
      rfl
    · rfl

@[simp] theorem advance_relabel (p : ParseState) : (p.relabel r).advance = p.advance.relabel r :=
  shift_relabel p.rest p

/-- An expected token is one of its kind, on any line. -/
@[simp] theorem expect_relabel (p : ParseState) (kind : TokenKind) (what : String) :
    (p.relabel r).expect kind what = (p.expect kind what).relabel r := by
  rw [expect, expect, at?_relabel]
  split
  · exact advance_relabel p
  · exact complainAt_relabel p p.current _

/-- Skipping stops at the same boundary. -/
theorem skip_relabel (ts : List Token) (p : ParseState) :
    skip (ts.map (Token.relabel r)) (p.relabel r) = (skip ts p).relabel r := by
  induction ts generalizing p with
  | nil =>
    rw [List.map_nil, skip, skip, atBoundary_relabel]
    split
    · rfl
    · exact shift_relabel [] p
  | cons t ts ih =>
    have hkind : (t.relabel r).kind = t.kind := rfl
    rw [List.map_cons, skip, skip, atBoundary_relabel, hkind]
    split
    · rfl
    · split
      · rw [← ih, complainAt_relabel]
        rfl
      · rw [← ih]
        rfl

@[simp] theorem synchronize_relabel (p : ParseState) :
    (p.relabel r).synchronize = p.synchronize.relabel r :=
  skip_relabel p.rest { p with panicking := false }

/-- A text is noted once, wherever it was found before. -/
theorem noteString_relabel (p : ParseState) (l : Literal) :
    (p.relabel r).withContext ((p.relabel r).context.noteString (l.relabel r)) =
      (p.withContext (p.context.noteString l)).relabel r := by
  cases l with
  | int _ | float _ | function _ => rfl
  | string text =>
    have hstrings : (p.relabel r).context.strings = p.context.strings := rfl
    rw [Literal.relabel, Context.noteString, Context.noteString, hstrings]
    split <;> rfl

/-- A literal gets the same index, or the same complaint for want of room. -/
@[simp] theorem addLiteral_relabel (p : ParseState) (l : Literal) :
    (p.relabel r).addLiteral (l.relabel r) = (p.addLiteral l).map id (relabel r) := by
  have hliterals : (p.relabel r).context.literals = Literal.relabelAll r p.context.literals := rfl
  have hnote := noteString_relabel (r := r) p l
  rw [addLiteral_def, addLiteral_def, hliterals, Literal.length_relabelAll]
  split
  · have hroom : (p.relabel r).withContext { (p.relabel r).context.noteString (l.relabel r) with
          literals := Literal.relabelAll r p.context.literals ++ [l.relabel r] } =
        { (p.relabel r).withContext ((p.relabel r).context.noteString (l.relabel r)) with
          literals := Literal.relabelAll r (p.context.literals ++ [l]) } := by
      rw [Literal.relabelAll_append]
      rfl
    rw [hroom, hnote]
    rfl
  · rw [hnote, complain_relabel]
    rfl

/-- A name is found among the literals, or added to them, in the same place. -/
@[simp] theorem nameLiteral_relabel (p : ParseState) (x : String) :
    (p.relabel r).nameLiteral x = (p.nameLiteral x).map id (relabel r) := by
  have hindex : Literal.indexOfString? (p.relabel r).literals x =
    Literal.indexOfString? p.literals x :=
    Literal.indexOfString?_relabelAll p.literals x
  rw [nameLiteral, nameLiteral, hindex]
  split
  · rfl
  · exact addLiteral_relabel p (.string x)

/-- A variable is declared in the same scope, and refused for the same reasons. -/
@[simp] theorem declare_relabel (p : ParseState) (x : String) :
    (p.relabel r).declare x = (p.declare x).relabel r := by
  have hscope : (p.relabel r).scope = p.scope := rfl
  have hcomplained : (if p.scope.declares x then (p.relabel r).complain
    .duplicateLocal else p.relabel r) =
      (if p.scope.declares x then p.complain .duplicateLocal else p).relabel r := by
    split
    · exact complain_relabel p _
    · rfl
  rw [declare, declare, hscope]
  split
  · rfl
  · simp only [hcomplained]
    generalize (if p.scope.declares x then p.complain .duplicateLocal else p) = q
    have hscope : (q.relabel r).scope = q.scope := rfl
    rw [hscope]
    split
    · rfl
    · exact complain_relabel q _

@[simp] theorem settle_relabel (p : ParseState) : (p.relabel r).settle = p.settle.relabel r := by
  have hscope : (p.relabel r).scope = p.scope := rfl
  rw [settle, settle, hscope]
  split <;> rfl

/-- A definition gives the same place, a slot or a global. -/
@[simp] theorem define_relabel (p : ParseState) (x : String) :
    (p.relabel r).define x = (p.define x).map id (relabel r) := by
  have hscope : (p.relabel r).scope = p.scope := rfl
  rw [define, define, hscope]
  split
  · rw [nameLiteral_relabel]
    rfl
  · rw [settle_relabel]
    rfl

/-- A name resolves to the same place. -/
@[simp] theorem resolve_relabel (p : ParseState) (x : String) :
    (p.relabel r).resolve x = (p.resolve x).map id (relabel r) := by
  have hscope : (p.relabel r).scope = p.scope := rfl
  have hglobals : (p.relabel r).globals = p.globals := rfl
  rw [resolve, resolve, hscope, hglobals]
  split
  · split
    · rfl
    · rw [complain_relabel]
      rfl
  · split
    · rw [nameLiteral_relabel]
      rfl
    · rw [complain_relabel]
      rfl

/-! ## Expressions -/

/-- An expression and a state under other labels. -/
abbrev relabelExpr (r : Relabel) : Expr × ParseState → Expr × ParseState :=
  Prod.map (Expr.relabel r) (relabel r)

/-- A number gives the same literal, with the line of its token. -/
theorem readNumber_relabel (p : ParseState) :
    (p.relabel r).readNumber = relabelExpr r p.readNumber := by
  have htext : (p.relabel r).previous.text = p.previous.text := rfl
  rw [readNumber, readNumber, htext]
  split
  · next n _ =>
    have hliteral := addLiteral_relabel (r := r) p (.int n)
    rw [Literal.relabel] at hliteral
    rw [hliteral]
    rfl
  · next bits _ =>
    have hliteral := addLiteral_relabel (r := r) p (.float bits)
    rw [Literal.relabel] at hliteral
    rw [hliteral]
    rfl
  · rw [complain_relabel]
    rfl

theorem readString_relabel (p : ParseState) :
    (p.relabel r).readString = relabelExpr r p.readString := by
  have htext : (p.relabel r).previous.text = p.previous.text := rfl
  have hliteral := addLiteral_relabel (r := r) p (.string (unquote p.previous.text))
  rw [Literal.relabel] at hliteral
  rw [readString, readString, htext]
  simp only [hliteral]
  rfl

@[simp] theorem readMember_relabel (p : ParseState) :
    (p.relabel r).readMember = p.readMember.map id (relabel r) := by
  rw [readMember, readMember, expect_relabel]
  generalize p.expect .identifier "member name after '.'" = q
  have hkind : (q.relabel r).previous.kind = q.previous.kind := rfl
  have htext : (q.relabel r).previous.text = q.previous.text := rfl
  simp only [hkind, htext]
  split
  · split
    · rfl
    · rw [complain_relabel]
      rfl
  · rfl

/-- Reading parts of expressions with budget `n` under other labels gives the same parts under these
labels. -/
structure ExprRelabels (r : Relabel) (n : Nat) : Prop where
  expr : ∀ least p, readExpr n least (p.relabel r) = relabelExpr r (readExpr n least p)
  operand : ∀ assignable p,
    readOperand n assignable (p.relabel r) =
    (readOperand n assignable p).map (Option.map (Expr.relabel r)) (relabel r)
  name : ∀ assignable p, readName n assignable (p.relabel r) =
    relabelExpr r (readName n assignable p)
  suffixes : ∀ least e p, readSuffixes n least (e.relabel r) (p.relabel r) =
    relabelExpr r (readSuffixes n least e p)
  suffix : ∀ s e p, readSuffix n s (e.relabel r) (p.relabel r) = relabelExpr r (readSuffix n s e p)
  arguments : ∀ read p,
    readArguments n (Expr.relabelAll r read) (p.relabel r) =
      (readArguments n read p).map (Expr.relabelAll r) (relabel r)

namespace ExprRelabels

variable {n : Nat}

/-- An expression is the same operand with the same suffixes. -/
theorem succ_expr (ih : ExprRelabels r n) (least : Precedence) (p : ParseState) :
    readExpr (n + 1) least (p.relabel r) = relabelExpr r (readExpr (n + 1) least p) := by
  rw [readExpr, readExpr, advance_relabel, ih.operand]
  rcases readOperand n (least.rank ≤ Precedence.assignment.rank) p.advance with ⟨_ | e, q⟩
  · simp only [Prod.map, Option.map, complain_relabel, Expr.relabel]
  · simp only [Prod.map, Option.map, ih.suffixes]
    rcases readSuffixes n least e q with ⟨e, q'⟩
    simp only [relabelExpr, Prod.map, at?_relabel, advance_relabel, complain_relabel]
    split <;> rfl

/-- An operand is the same, whatever it starts with. -/
theorem succ_operand (ih : ExprRelabels r n) (assignable : Bool) (p : ParseState) :
    readOperand (n + 1) assignable (p.relabel r) =
      (readOperand (n + 1) assignable p).map (Option.map (Expr.relabel r)) (relabel r) := by
  have hkind : (p.relabel r).previous.kind = p.previous.kind := rfl
  rw [readOperand, readOperand, hkind]
  split
  · rw [readNumber_relabel]
    rfl
  · rw [readString_relabel]
    rfl
  · rfl
  · rfl
  · rfl
  · rw [ih.name]
    rfl
  · rw [ih.expr]
    simp only [Prod.map, expect_relabel, Option.map]
  · rw [ih.expr]
    rfl
  · rw [ih.expr]
    rfl
  · rfl

/-- A name is read as the same variable, member or assignment. -/
theorem succ_name (ih : ExprRelabels r n) (assignable : Bool) (p : ParseState) :
    readName (n + 1) assignable (p.relabel r) = relabelExpr r (readName (n + 1) assignable p) := by
  have htext : (p.relabel r).previous.text = p.previous.text := rfl
  rw [readName, readName, htext, resolve_relabel]
  rcases p.resolve p.previous.text with ⟨_ | v, q⟩
  · rfl
  · simp only [Prod.map, id, at?_relabel, advance_relabel, ih.expr, readMember_relabel]
    split
    · rfl
    · split
      · rcases q.advance.readMember with ⟨_ | m, q'⟩
        · rfl
        · simp only [at?_relabel, advance_relabel, ih.expr]
          split <;> rfl
      · rfl

theorem succ_suffixes (ih : ExprRelabels r n) (least : Precedence) (e : Expr) (p : ParseState) :
    readSuffixes (n + 1) least (e.relabel r) (p.relabel r) =
      relabelExpr r (readSuffixes (n + 1) least e p) := by
  have hkind : (p.relabel r).current.kind = p.current.kind := rfl
  rw [readSuffixes, readSuffixes, hkind]
  split
  · rfl
  · split
    · rfl
    · rw [advance_relabel, ih.suffix]
      exact ih.suffixes least _ _

/-- A suffix is the same call, member or operation. -/
theorem succ_suffix (ih : ExprRelabels r n) (s : Suffix) (e : Expr) (p : ParseState) :
    readSuffix (n + 1) s (e.relabel r) (p.relabel r) =
      relabelExpr r (readSuffix (n + 1) s e p) := by
  cases s with
  | call =>
    have harguments : (if p.at? .rightParen then ([], p.relabel r) else readArguments n []
      (p.relabel r)) =
        (if p.at? .rightParen then ([], p) else readArguments n [] p).map (Expr.relabelAll r)
        (relabel r) := by
      split
      · rfl
      · exact ih.arguments [] p
    rw [readSuffix, readSuffix, at?_relabel, harguments]
    simp only [Prod.map, expect_relabel]
    rfl
  | member =>
    rw [readSuffix, readSuffix, readMember_relabel]
    rcases p.readMember with ⟨_ | m, q⟩ <;> rfl
  | logical strength =>
    rw [readSuffix, readSuffix, complain_relabel, ih.expr]
    simp only [Prod.map, Expr.relabel, Expr.size_relabel]
  | operator op strength =>
    rw [readSuffix, readSuffix, ih.expr]
    rfl

/-- The arguments are the same, also if there are too many. -/
theorem succ_arguments (ih : ExprRelabels r n) (read : List Expr) (p : ParseState) :
    readArguments (n + 1) (Expr.relabelAll r read) (p.relabel r) =
      (readArguments (n + 1) read p).map (Expr.relabelAll r) (relabel r) := by
  have hlength : (Expr.relabelAll r read).length = read.length := by
    rw [Expr.relabelAll_eq, List.length_map]
  have hreverse (es : List Expr) : (Expr.relabelAll r es).reverse =
    Expr.relabelAll r es.reverse := by
    simp only [Expr.relabelAll_eq, List.map_reverse]
  rw [readArguments, readArguments, ih.expr]
  generalize readExpr n .assignment p = x
  have hlimit : (if read.length = maxArguments then (x.2.relabel r).complain
    .tooManyArguments else x.2.relabel r) =
      (if read.length = maxArguments then x.2.complain .tooManyArguments else x.2).relabel r := by
    split
    · exact complain_relabel x.2 _
    · rfl
  simp only [Prod.map, hlength, hlimit]
  generalize (if read.length = maxArguments then x.2.complain .tooManyArguments else x.2) = q
  simp only [at?_relabel, advance_relabel]
  split
  · exact ih.arguments (x.1 :: read) q.advance
  · rw [← hreverse]
    rfl

end ExprRelabels

/-- Expressions are read alike under all labels, whatever the budget. -/
theorem exprRelabels (r : Relabel) (n : Nat) : ExprRelabels r n := by
  induction n with
  | zero =>
    constructor <;> intros
    · rfl
    · rfl
    · rfl
    · rfl
    · rw [readSuffix, readSuffix]
      rfl
    · next read p =>
      rw [readArguments, readArguments]
      simp only [Prod.map, Expr.relabelAll_eq, List.map_reverse, exhaust_relabel]
  | succ n ih =>
    exact ⟨ih.succ_expr, ih.succ_operand, ih.succ_name, ih.succ_suffixes, ih.succ_suffix,
      ih.succ_arguments⟩

@[simp] theorem readExpr_relabel (n : Nat) (least : Precedence) (p : ParseState) :
    (p.relabel r).readExpr n least = relabelExpr r (p.readExpr n least) :=
  (exprRelabels r n).expr least p

/-! ## Statements -/

/-- A statement and a state under other labels. -/
abbrev relabelStmt (r : Relabel) : Stmt × ParseState → Stmt × ParseState :=
  Prod.map (Stmt.relabel r) (relabel r)

/-- Whether a jump is too long depends on the code alone. -/
@[simp] theorem checkJump_relabel (p : ParseState) (offset : Nat) :
    (p.relabel r).checkJump offset = (p.checkJump offset).relabel r := by
  rw [checkJump, checkJump, complain_relabel]
  split <;> rfl

@[simp] theorem checkLoop_relabel (p : ParseState) (offset : Nat) :
    (p.relabel r).checkLoop offset = (p.checkLoop offset).relabel r := by
  rw [checkLoop, checkLoop, complain_relabel]
  split <;> rfl

@[simp] theorem readCondition_relabel (n : Nat) (word : String) (p : ParseState) :
    (p.relabel r).readCondition n word = relabelExpr r (p.readCondition n word) := by
  rw [readCondition, readCondition, expect_relabel, readExpr_relabel]
  simp only [Prod.map, expect_relabel]

/-- A declaration is read alike: its value before its name is settled. -/
theorem readLet_relabel (n : Nat) (p : ParseState) :
    (p.relabel r).readLet n = relabelStmt r (p.readLet n) := by
  rw [readLet, readLet, expect_relabel]
  generalize p.expect .identifier "variable name" = q
  have htext : (q.relabel r).previous.text = q.previous.text := rfl
  simp only [htext, declare_relabel]
  generalize q.declare q.previous.text = d
  have hinit : (if (d.relabel r).at? .equal then (d.relabel r).advance.readExpr n .assignment
        else (.nil (d.relabel r).line, d.relabel r)) =
      relabelExpr r (if d.at? .equal then d.advance.readExpr n
        .assignment else (.nil d.line, d)) := by
    rw [at?_relabel, advance_relabel, readExpr_relabel]
    split <;> rfl
  rw [hinit]
  generalize (if d.at? .equal then d.advance.readExpr n .assignment else (.nil d.line, d)) = x
  simp only [relabelExpr, Prod.map, expect_relabel, define_relabel]
  rfl

/-- A return is read alike, or refused outside of functions. -/
theorem readReturn_relabel (n : Nat) (p : ParseState) :
    (p.relabel r).readReturn n = relabelStmt r (p.readReturn n) := by
  rw [readReturn, readReturn, at?_relabel, advance_relabel, readExpr_relabel]
  split
  · rfl
  · simp only [Prod.map, expect_relabel]
    rfl

/-- The parameters are the same, also if there are too many. -/
theorem readParameters_relabel (n : Nat) (read : List String) (p : ParseState) :
    (p.relabel r).readParameters n read = (p.readParameters n read).map id (relabel r) := by
  induction n generalizing read p with
  | zero => rfl
  | succ n ih =>
    have hlimit : (if read.length = maxArguments then (p.relabel r).complainAt (p.relabel r).current
      .tooManyParameters
          else p.relabel r) =
        (if read.length = maxArguments then p.complainAt p.current
          .tooManyParameters else p).relabel r := by
      split
      · exact complainAt_relabel p p.current _
      · rfl
    rw [readParameters, readParameters]
    simp only [hlimit, expect_relabel]
    generalize (if read.length = maxArguments then p.complainAt p.current
      .tooManyParameters else p).expect .identifier "parameter name" = q
    have htext : (q.relabel r).previous.text = q.previous.text := rfl
    simp only [htext, declare_relabel, settle_relabel, at?_relabel, advance_relabel, ih]
    split <;> rfl

/-- The literal of a function has the relabelled body and the relabelled number. -/
theorem closeFunction_relabel (p outer : ParseState) (name : String) (arity : Nat) (body : Block) :
    (p.relabel r).closeFunction (outer.relabel r) name arity (body.relabel r) =
      (p.closeFunction outer name arity body).map id (relabel r) := by
  have hfunction := Function.assemble_relabel (r := r) p.unit p.serial
    (some name) arity p.literals body p.line
  have hliteral := addLiteral_relabel (r := r) { p with
    scope := outer.scope, literals := outer.literals, serial := p.serial + 1 }
    (.function (.assemble ⟨p.unit, p.serial⟩ (some name) arity p.literals body p.line))
  rw [Literal.relabel, ← hfunction] at hliteral
  exact hliteral

/-- Reading statements with budget `n` under other labels gives the same statements under these
labels. -/
structure StmtRelabels (r : Relabel) (n : Nat) : Prop where
  declaration : ∀ p, readDeclaration n (p.relabel r) = relabelStmt r (readDeclaration n p)
  function : ∀ p, readFunction n (p.relabel r) = relabelStmt r (readFunction n p)
  statement : ∀ p, readStatement n (p.relabel r) = relabelStmt r (readStatement n p)
  ifThen : ∀ p, readIf n (p.relabel r) = relabelStmt r (readIf n p)
  loop : ∀ p, readWhile n (p.relabel r) = relabelStmt r (readWhile n p)
  block : ∀ read p, readBlock n (read.relabel r) (p.relabel r) =
    (readBlock n read p).map (Block.relabel r) (relabel r)

namespace StmtRelabels

variable {n : Nat}

/-- A declaration is read alike, and so is what is skipped after a wrong one. -/
theorem succ_declaration (ih : StmtRelabels r n) (p : ParseState) :
    readDeclaration (n + 1) (p.relabel r) = relabelStmt r (readDeclaration (n + 1) p) := by
  have hread : (if (p.relabel r).at? .kwFun then readFunction n (p.relabel r).advance
        else if (p.relabel r).at? .kwLet then (p.relabel r).advance.readLet n else readStatement n
        (p.relabel r)) =
      relabelStmt r (if p.at? .kwFun then readFunction n p.advance
        else if p.at? .kwLet then p.advance.readLet n else readStatement n p) := by
    rw [advance_relabel, ih.function, readLet_relabel, ih.statement, at?_relabel, at?_relabel]
    split
    · rfl
    · split <;> rfl
  rw [readDeclaration, readDeclaration, hread]
  generalize (if p.at? .kwFun then readFunction n p.advance
    else if p.at? .kwLet then p.advance.readLet n else readStatement n p) = x
  have hpanicking : (x.2.relabel r).panicking = x.2.panicking := rfl
  simp only [relabelStmt, Prod.map, hpanicking, synchronize_relabel]
  split <;> rfl

/-- A function is read in a scope of its own, which has no labels of its own. -/
theorem succ_function (ih : StmtRelabels r n) (p : ParseState) :
    readFunction (n + 1) (p.relabel r) = relabelStmt r (readFunction (n + 1) p) := by
  rw [readFunction, readFunction, expect_relabel]
  generalize p.expect .identifier "function name" = q
  have htext : (q.relabel r).previous.text = q.previous.text := rfl
  have hscope : (q.relabel r).scope = q.scope := rfl
  have houter : (if q.scope.depth = 0 then (q.relabel r).addGlobal q.previous.text
        else ((q.relabel r).declare q.previous.text).settle) =
      (if q.scope.depth = 0 then q.addGlobal
        q.previous.text else (q.declare q.previous.text).settle).relabel r := by
    split
    · rfl
    · rw [declare_relabel, settle_relabel]
  simp only [htext, hscope, houter]
  generalize (if q.scope.depth = 0 then q.addGlobal
    q.previous.text else (q.declare q.previous.text).settle) = outer
  simp only [openFunction_relabel, expect_relabel]
  generalize outer.openFunction.expect .leftParen "'(' after function name" = q'
  have hparameters :
      (if (q'.relabel r).at? .rightParen then ([], q'.relabel r) else (q'.relabel r).readParameters
        n []) =
      (if q'.at? .rightParen then ([], q') else q'.readParameters n []).map id (relabel r) := by
    rw [at?_relabel]
    split
    · rfl
    · exact readParameters_relabel n [] q'
  rw [hparameters]
  generalize (if q'.at? .rightParen then ([], q') else q'.readParameters n []) = x
  have hblock := ih.block .empty
    ((x.2.expect .rightParen "')' after parameters").expect .leftBrace
      "'\x7b' before function body")
  rw [Block.relabel] at hblock
  simp only [Prod.map, id, expect_relabel, hblock, closeFunction_relabel, define_relabel]
  rfl

/-- A statement is read by the reader of its kind. -/
theorem succ_statement (ih : StmtRelabels r n) (p : ParseState) :
    readStatement (n + 1) (p.relabel r) = relabelStmt r (readStatement (n + 1) p) := by
  have hkind : (p.relabel r).current.kind = p.current.kind := rfl
  rw [readStatement, readStatement, hkind]
  split
  · simp only [advance_relabel, readExpr_relabel, relabelExpr, Prod.map, expect_relabel]
    rfl
  · rw [advance_relabel, ih.ifThen]
  · rw [advance_relabel, ih.loop]
  · rw [advance_relabel, readReturn_relabel]
  · simp only [advance_relabel, expect_relabel]
    rfl
  · simp only [advance_relabel, expect_relabel]
    rfl
  · have hblock := ih.block .empty p.advance.enter
    rw [Block.relabel] at hblock
    simp only [advance_relabel, enter_relabel, hblock, Prod.map, leave_relabel]
    rfl
  · simp only [readExpr_relabel, relabelExpr, Prod.map, expect_relabel]
    rfl

/-- A conditional is read alike, with jumps of the same lengths. -/
theorem succ_ifThen (ih : StmtRelabels r n) (p : ParseState) :
    readIf (n + 1) (p.relabel r) = relabelStmt r (readIf (n + 1) p) := by
  rw [readIf, readIf, readCondition_relabel]
  generalize p.readCondition n "if" = c
  simp only [relabelStmt, Prod.map, ih.statement, skipBody_relabel, checkJump_relabel,
    advance_relabel, skipOther_relabel]
  rw [at?_relabel]
  split <;> rfl

theorem succ_loop (ih : StmtRelabels r n) (p : ParseState) :
    readWhile (n + 1) (p.relabel r) = relabelStmt r (readWhile (n + 1) p) := by
  rw [readWhile, readWhile, readCondition_relabel]
  generalize p.readCondition n "while" = c
  simp only [relabelStmt, Prod.map, ih.statement, skipBody_relabel, loopBack_relabel,
    checkLoop_relabel, checkJump_relabel]
  rfl

/-- The declarations of a block are read alike, one after the other. -/
theorem succ_block (ih : StmtRelabels r n) (read : Block) (p : ParseState) :
    readBlock (n + 1) (read.relabel r) (p.relabel r) =
      (readBlock (n + 1) read p).map (Block.relabel r) (relabel r) := by
  rw [readBlock, readBlock]
  simp only [at?_relabel, expect_relabel, ih.declaration]
  split
  · rfl
  · exact ih.block (read.append (readDeclaration n p).1) (readDeclaration n p).2

end StmtRelabels

/-- Statements are read alike under all labels, whatever the budget. -/
theorem stmtRelabels (r : Relabel) (n : Nat) : StmtRelabels r n := by
  induction n with
  | zero =>
    have hdefault : (default : Stmt).relabel r = default := congrArg Stmt.yield r.line_zero
    have hnothing (p : ParseState) : (default, p.relabel r) = relabelStmt r (default, p) := by
      rw [relabelStmt, Prod.map, hdefault]
    exact ⟨fun p => hnothing p.exhaust, fun p => hnothing p.exhaust, fun p => hnothing p.exhaust,
      fun p => hnothing p.exhaust, fun p => hnothing p.exhaust, fun _ _ => rfl⟩
  | succ n ih =>
    exact ⟨ih.succ_declaration, ih.succ_function, ih.succ_statement, ih.succ_ifThen, ih.succ_loop,
      ih.succ_block⟩

theorem readScript_relabel (n : Nat) (read : Block) (p : ParseState) :
    (p.relabel r).readScript n (read.relabel r) =
      (p.readScript n read).map (Block.relabel r) (relabel r) := by
  induction n generalizing read p with
  | zero => rfl
  | succ n ih =>
    rw [readScript, readScript]
    simp only [at?_relabel, advance_relabel, (stmtRelabels r n).declaration]
    split
    · rfl
    · exact ih (read.append (readDeclaration n p).1) (readDeclaration n p).2

end ParseState

end EntityScript
