/-
# Reading keeps errors

No function of the compiler forgets an error, whatever it reads and however it goes on: `Keeps p q`
holds between the state before and the state after.  So a script that ends up without diagnostics
was read without an error at every place, which is where its tree can be read off.
-/
import EntityScript.Compile.Program
import EntityScript.Proofs.Compile.State

namespace EntityScript

namespace ParseState

/-! ## Expressions -/

/-- A number without a value is an error, and one with a value a literal. -/
theorem keeps_readNumber (p : ParseState) : Keeps p p.readNumber.2 := by
  unfold readNumber
  split
  · exact keeps_addLiteral p _
  · exact keeps_addLiteral p _
  · exact keeps_complain p _

theorem keeps_readString (p : ParseState) : Keeps p p.readString.2 :=
  keeps_addLiteral p (.string (unquote p.previous.text))

/-- Reading parts of expressions with budget `n` keeps errors. -/
structure ExprKeeps (n : Nat) : Prop where
  expr : ∀ least p, Keeps p (readExpr n least p).2
  operand : ∀ assignable p, Keeps p (readOperand n assignable p).2
  name : ∀ assignable p, Keeps p (readName n assignable p).2
  suffixes : ∀ least e p, Keeps p (readSuffixes n least e p).2
  suffix : ∀ s e p, Keeps p (readSuffix n s e p).2
  arguments : ∀ read p, Keeps p (readArguments n read p).2

namespace ExprKeeps

variable {n : Nat}

/-- An expression is an operand with its suffixes, and perhaps a stray assignment. -/
theorem succ_expr (ih : ExprKeeps n) (least : Precedence) (p : ParseState) :
    Keeps p (readExpr (n + 1) least p).2 := by
  have ho : Keeps p (readOperand n (least.rank ≤ Precedence.assignment.rank) p.advance).2 :=
    (keeps_advance p).trans (ih.operand _ _)
  rw [readExpr]
  simp only
  split
  · next q hq =>
    rw [hq] at ho
    exact ho.trans (keeps_complain _ _)
  · next e q hq =>
    rw [hq] at ho
    have hx : Keeps p (readSuffixes n least e q).2 := ho.trans (ih.suffixes least e q)
    split
    · exact (hx.trans (keeps_advance _)).trans (keeps_complain _ _)
    · exact hx

/-- An operand is a token, or an expression behind one. -/
theorem succ_operand (ih : ExprKeeps n) (assignable : Bool) (p : ParseState) :
    Keeps p (readOperand (n + 1) assignable p).2 := by
  rw [readOperand]
  split
  · exact keeps_readNumber p
  · exact keeps_readString p
  · exact .refl p
  · exact .refl p
  · exact .refl p
  · exact ih.name assignable p
  · exact (ih.expr .assignment p).trans (keeps_expect _ _ _)
  · exact ih.expr .unary p
  · exact ih.expr .unary p
  · exact .refl p

/-- Nothing that is read after a name forgets that the name was an error. -/
theorem succ_resolve (ih : ExprKeeps n) (assignable : Bool) (p : ParseState) :
    Keeps (p.resolve p.previous.text).2 (readName (n + 1) assignable p).2 := by
  rw [readName]
  split
  · next q hq =>
    rw [hq]
    exact .refl q
  · next v q hq =>
    rw [hq]
    have ha : Keeps q q.advance := keeps_advance q
    split
    · exact ha.trans (ih.expr .assignment _)
    · split
      · have hm := ha.trans (keeps_readMember q.advance)
        split
        · next r hr =>
          rw [hr] at hm
          exact hm
        · next m r hr =>
          rw [hr] at hm
          split
          · exact (hm.trans (keeps_advance r)).trans (ih.expr .assignment _)
          · exact hm
      · exact .refl q

theorem succ_name (ih : ExprKeeps n) (assignable : Bool) (p : ParseState) :
    Keeps p (readName (n + 1) assignable p).2 :=
  (keeps_resolve p p.previous.text).trans (ih.succ_resolve assignable p)

/-- The suffixes come one after the other. -/
theorem succ_suffixes (ih : ExprKeeps n) (least : Precedence) (e : Expr) (p : ParseState) :
    Keeps p (readSuffixes (n + 1) least e p).2 := by
  rw [readSuffixes]
  split
  · exact .refl p
  · next s hs =>
    split
    · exact .refl p
    · exact ((keeps_advance p).trans (ih.suffix s e _)).trans (ih.suffixes least _ _)

/-- A suffix is a call, a member or an operator with its operand. -/
theorem succ_suffix (ih : ExprKeeps n) (s : Suffix) (e : Expr) (p : ParseState) :
    Keeps p (readSuffix (n + 1) s e p).2 := by
  cases s with
  | call =>
    have ha : Keeps p (if p.at? .rightParen then ([], p) else readArguments n [] p).2 := by
      split
      · exact .refl p
      · exact ih.arguments [] p
    rw [readSuffix]
    exact ha.trans (keeps_expect _ _ _)
  | member =>
    have hm := keeps_readMember p
    rw [readSuffix]
    split
    · next m q hq =>
      rw [hq] at hm
      exact hm
    · next q hq =>
      rw [hq] at hm
      exact hm
  | logical strength =>
    rw [readSuffix]
    exact (keeps_complain p _).trans (ih.expr strength.next _)
  | operator op strength =>
    rw [readSuffix]
    exact ih.expr strength.next p

/-- The arguments come one after the other, and one too many is an error more. -/
theorem succ_arguments (ih : ExprKeeps n) (read : List Expr) (p : ParseState) :
    Keeps p (readArguments (n + 1) read p).2 := by
  have he := ih.expr .assignment p
  have hl : Keeps p (if read.length = maxArguments
      then (readExpr n .assignment p).2.complain .tooManyArguments
      else (readExpr n .assignment p).2) := by
    split
    · exact he.trans (keeps_complain _ _)
    · exact he
  rw [readArguments]
  simp only
  generalize (if read.length = maxArguments
      then (readExpr n .assignment p).2.complain .tooManyArguments
      else (readExpr n .assignment p).2) = q at hl ⊢
  split
  · exact (hl.trans (keeps_advance q)).trans (ih.arguments _ _)
  · exact hl

end ExprKeeps

/-- The parts of an expression keep errors, whatever the budget. -/
theorem exprKeeps (n : Nat) : ExprKeeps n := by
  induction n with
  | zero =>
    constructor <;> intros
    · exact keeps_exhaust _
    · exact keeps_exhaust _
    · exact keeps_exhaust _
    · exact keeps_exhaust _
    · rw [readSuffix]
      exact keeps_exhaust _
    · exact keeps_exhaust _
  | succ n ih =>
    exact ⟨ih.succ_expr, ih.succ_operand, ih.succ_name, ih.succ_suffixes, ih.succ_suffix,
      ih.succ_arguments⟩

theorem keeps_readExpr (n : Nat) (least : Precedence) (p : ParseState) :
    Keeps p (readExpr n least p).2 :=
  (exprKeeps n).expr least p

/-! ## Statements -/

theorem keeps_checkJump (p : ParseState) (offset : Nat) : Keeps p (p.checkJump offset) := by
  unfold checkJump
  split
  · exact keeps_complain p _
  · exact .refl p

theorem keeps_checkLoop (p : ParseState) (offset : Nat) : Keeps p (p.checkLoop offset) := by
  unfold checkLoop
  split
  · exact keeps_complain p _
  · exact .refl p

theorem keeps_readCondition (n : Nat) (word : String) (p : ParseState) :
    Keeps p (p.readCondition n word).2 :=
  ((keeps_expect p _ _).trans (keeps_readExpr n .assignment _)).trans (keeps_expect _ _ _)

/-- The first value of a variable, if one is written. -/
theorem keeps_readInit (n : Nat) (p : ParseState) :
    Keeps p (if p.at? .equal then p.advance.readExpr n .assignment else (.nil p.line, p)).2 := by
  split
  · exact (keeps_advance p).trans (keeps_readExpr n .assignment _)
  · exact .refl p

/-- A declaration keeps errors: its name is declared before its value is read, and settled after it.
-/
theorem keeps_readLet (n : Nat) (p : ParseState) : Keeps p (p.readLet n).2 := by
  have hd := (keeps_expect p .identifier "variable name").trans (keeps_declare _
    (p.expect .identifier "variable name").previous.text)
  exact ((hd.trans (keeps_readInit n _)).trans (keeps_expect _ _ _)).trans (keeps_define _ _)

/-- A return outside of functions is an error more. -/
theorem keeps_readReturn (n : Nat) (p : ParseState) : Keeps p (p.readReturn n).2 := by
  unfold readReturn
  split
  · exact keeps_advance p
  · exact (keeps_readExpr n .assignment p).trans (keeps_expect _ _ _)

/-- The state in which a parameter is read: too many of them are an error. -/
theorem keeps_limitParameters (p : ParseState) (read : List String) :
    Keeps p
      (if read.length = maxArguments then p.complainAt p.current .tooManyParameters else p) := by
  split
  · exact keeps_complainAt p _ _
  · exact .refl p

/-- The parameters come one after the other, and one too many is an error more. -/
theorem keeps_readParameters (n : Nat) (read : List String) (p : ParseState) :
    Keeps p (p.readParameters n read).2 := by
  induction n generalizing read p with
  | zero => exact keeps_exhaust p
  | succ n ih =>
    have hl := (keeps_limitParameters p read).trans (keeps_expect _ .identifier "parameter name")
    rw [readParameters]
    generalize (if read.length = maxArguments then p.complainAt p.current .tooManyParameters
      else p).expect .identifier "parameter name" = q at hl ⊢
    have hd := (hl.trans (keeps_declare q q.previous.text)).trans (keeps_settle _)
    split
    · exact (hd.trans (keeps_advance _)).trans (ih _ _)
    · exact hd

/-- A function that finds no place among the literals is an error more. -/
theorem keeps_closeFunction (p outer : ParseState) (name : String) (arity : Nat) (body : Block) :
    Keeps p (p.closeFunction outer name arity body).2 := by
  have h : Keeps p { p with
      scope := outer.scope, literals := outer.literals, serial := p.serial + 1 } := .of_eq rfl rfl
  exact h.trans (keeps_addLiteral _ _)

/-- Reading statements with budget `n` keeps errors. -/
structure StmtKeeps (n : Nat) : Prop where
  declaration : ∀ p, Keeps p (readDeclaration n p).2
  function : ∀ p, Keeps p (readFunction n p).2
  statement : ∀ p, Keeps p (readStatement n p).2
  ifThen : ∀ p, Keeps p (readIf n p).2
  loop : ∀ p, Keeps p (readWhile n p).2
  block : ∀ read p, Keeps p (readBlock n read p).2

/-- The name of a function, which is a global or a local. -/
theorem keeps_declareName (p : ParseState) (x : String) :
    Keeps p (if p.scope.depth = 0 then p.addGlobal x else (p.declare x).settle) := by
  split
  · exact .of_eq rfl rfl
  · exact (keeps_declare p x).trans (keeps_settle _)

/-- The parameters of a function, if there are any. -/
theorem keeps_readSignature (n : Nat) (p : ParseState) :
    Keeps p (if p.at? .rightParen then ([], p) else p.readParameters n []).2 := by
  split
  · exact .refl p
  · exact keeps_readParameters n [] p

namespace StmtKeeps

variable {n : Nat}

/-- A declaration or a statement, by its first word. -/
theorem clause (h : StmtKeeps n) (p : ParseState) :
    Keeps p (if p.at? .kwFun then readFunction n p.advance
      else if p.at? .kwLet then p.advance.readLet n else readStatement n p).2 := by
  split
  · exact (keeps_advance p).trans (h.function _)
  · split
    · exact (keeps_advance p).trans (keeps_readLet n _)
    · exact h.statement p

/-- A declaration that is wrong is passed over, which forgets nothing. -/
theorem succ_declaration (ih : StmtKeeps n) (p : ParseState) :
    Keeps p (readDeclaration (n + 1) p).2 := by
  have hr := ih.clause p
  rw [readDeclaration]
  simp only
  generalize (if p.at? .kwFun then readFunction n p.advance
      else if p.at? .kwLet then p.advance.readLet n else readStatement n p) = r at hr ⊢
  split
  · exact hr.trans (keeps_synchronize r.2)
  · exact hr

/-- A function is read in a scope of its own; the errors are those of the whole script. -/
theorem succ_function (ih : StmtKeeps n) (p : ParseState) :
    Keeps p (readFunction (n + 1) p).2 := by
  rw [readFunction]
  have hname := (keeps_expect p .identifier "function name").trans (keeps_declareName _
    (p.expect .identifier "function name").previous.text)
  have hopen : ∀ outer : ParseState, Keeps outer outer.openFunction := fun _ => .of_eq rfl rfl
  have hparameters := ((hname.trans (hopen _)).trans
    (keeps_expect _ .leftParen "'(' after function name")).trans
    (keeps_readSignature n _)
  exact ((((hparameters.trans (keeps_expect _ _ _)).trans (keeps_expect _ _ _)).trans
    (ih.block _ _)).trans (keeps_closeFunction _ _ _ _ _)).trans (keeps_define _ _)

/-- A statement is read by the reader of its kind. -/
theorem succ_statement (ih : StmtKeeps n) (p : ParseState) :
    Keeps p (readStatement (n + 1) p).2 := by
  have ha := keeps_advance p
  rw [readStatement]
  split
  · exact (ha.trans (keeps_readExpr n .assignment _)).trans (keeps_expect _ _ _)
  · exact ha.trans (ih.ifThen _)
  · exact ha.trans (ih.loop _)
  · exact ha.trans (keeps_readReturn n _)
  · exact ha.trans (keeps_expect _ _ _)
  · exact ha.trans (keeps_expect _ _ _)
  · have he : Keeps p.advance p.advance.enter := .of_eq rfl rfl
    exact ((ha.trans he).trans (ih.block _ _)).trans (.of_eq rfl rfl)
  · exact (keeps_readExpr n .assignment p).trans (keeps_expect _ _ _)

/-- A conditional keeps errors: condition, branches and jumps do. -/
theorem succ_ifThen (ih : StmtKeeps n) (p : ParseState) : Keeps p (readIf (n + 1) p).2 := by
  have hb : Keeps p ((readStatement n (p.readCondition n "if").2).2.checkJump
      (skipBody (readStatement n (p.readCondition n "if").2).1)) :=
    ((keeps_readCondition n "if" p).trans (ih.statement _)).trans (keeps_checkJump _ _)
  rw [readIf]
  simp only
  split
  · exact ((hb.trans (keeps_advance _)).trans (ih.statement _)).trans (keeps_checkJump _ _)
  · exact hb

theorem succ_loop (ih : StmtKeeps n) (p : ParseState) : Keeps p (readWhile (n + 1) p).2 := by
  rw [readWhile]
  exact (((keeps_readCondition n "while" p).trans (ih.statement _)).trans
    (keeps_checkLoop _ _)).trans (keeps_checkJump _ _)

/-- The declarations of a block come one after the other. -/
theorem succ_block (ih : StmtKeeps n) (read : Block) (p : ParseState) :
    Keeps p (readBlock (n + 1) read p).2 := by
  rw [readBlock]
  split
  · exact keeps_expect p _ _
  · exact (ih.declaration p).trans (ih.block _ _)

end StmtKeeps

/-- Statements keep errors, whatever the budget. -/
theorem stmtKeeps (n : Nat) : StmtKeeps n := by
  induction n with
  | zero => constructor <;> intros <;> exact keeps_exhaust _
  | succ n ih =>
    exact ⟨ih.succ_declaration, ih.succ_function, ih.succ_statement, ih.succ_ifThen, ih.succ_loop,
      ih.succ_block⟩

theorem keeps_readScript (n : Nat) (read : Block) (p : ParseState) :
    Keeps p (p.readScript n read).2 := by
  induction n generalizing read p with
  | zero => exact keeps_exhaust p
  | succ n ih =>
    rw [readScript]
    split
    · exact keeps_advance p
    · exact ((stmtKeeps n).declaration p).trans (ih _ _)

end ParseState

end EntityScript
