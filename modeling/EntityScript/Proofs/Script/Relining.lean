/-
# Scripts on other lines

Neither the lines of a script nor the sites of its functions matter to the grammar: with other
lines, and with other sites, it stays what it is (`Spells.relined`).
-/
import EntityScript.Proofs.Script.Grammar

namespace EntityScript

/-- A token on another line. -/
def Token.relined (f : Nat → Nat) (t : Token) : Token :=
  { t with line := f t.line }

mutual

/-- An expression on other lines. -/
def Term.relined (f : Nat → Nat) : Term → Term
  | .nil line => .nil (f line)
  | .bool b line => .bool b (f line)
  | .number text line => .number text (f line)
  | .string text line => .string text (f line)
  | .name x line => .name x (f line)
  | .assign x value => .assign x (value.relined f)
  | .assignMember x m value => .assignMember x m (value.relined f)
  | .group e line => .group (e.relined f) (f line)
  | .member e m line => .member (e.relined f) m (f line)
  | .unary op e => .unary op (e.relined f)
  | .binary op lhs rhs => .binary op (lhs.relined f) (rhs.relined f)
  | .call callee arguments line => .call (callee.relined f) (Term.relinedAll f arguments) (f line)

/-- Expressions on other lines. -/
def Term.relinedAll (f : Nat → Nat) : List Term → List Term
  | [] => []
  | e :: es => e.relined f :: Term.relinedAll f es

end

mutual

/-- A statement or a declaration on other lines, in a script that has fewer functions before it. -/
def Clause.relined (f : Nat → Nat) (d : Nat) : Clause → Clause
  | .expr e line => .expr (e.relined f) (f line)
  | .print e line => .print (e.relined f) (f line)
  | .declare x nameLine init line => .declare x (f nameLine) (init.map (Term.relined f)) (f line)
  | .function site x parameters body line =>
    .function (site - d) x parameters (Clause.relinedAll f d body) (f line)
  | .ifThen cond line body => .ifThen (cond.relined f) (f line) (body.relined f d)
  | .ifElse cond line body other =>
    .ifElse (cond.relined f) (f line) (body.relined f d) (other.relined f d)
  | .loop cond line body => .loop (cond.relined f) (f line) (body.relined f d)
  | .ret value line => .ret (value.map (Term.relined f)) (f line)
  | .yield line => .yield (f line)
  | .stop line => .stop (f line)
  | .block body line => .block (Clause.relinedAll f d body) (f line)

/-- Statements and declarations on other lines. -/
def Clause.relinedAll (f : Nat → Nat) (d : Nat) : List Clause → List Clause
  | [] => []
  | s :: ss => s.relined f d :: Clause.relinedAll f d ss

end

def Phrase.relined (f : Nat → Nat) : Phrase → Phrase
  | .expr level e => .expr level (e.relined f)
  | .arguments es => .arguments (Term.relinedAll f es)

def Sentence.relined (f : Nat → Nat) (d : Nat) : Sentence → Sentence
  | .statement s => .statement (s.relined f d)
  | .declaration s => .declaration (s.relined f d)
  | .sequence ss => .sequence (Clause.relinedAll f d ss)

section

variable {f : Nat → Nat} {d : Nat} {ts : List Token}

@[simp] theorem Clause.lastLine_relined (s : Clause) : (s.relined f d).lastLine = f s.lastLine := by
  induction s using Clause.lastLine.induct <;> simp_all [Clause.relined, Clause.lastLine]

/-- An `else` behind a statement belongs to it as before. -/
@[simp] theorem Clause.isOpen_relined (s : Clause) : (s.relined f d).isOpen = s.isOpen := by
  cases s with
  | ifElse cond line body other => simp [Clause.relined, Clause.isOpen, other.isOpen_relined]
  | loop cond line body => simp [Clause.relined, Clause.isOpen, body.isOpen_relined]
  | ifThen | expr | print | declare | function | ret | yield | stop | block =>
    simp [Clause.relined, Clause.isOpen]

/-- A name is still a name on another line. -/
theorem Term.isName_relined (e : Term) : (e.relined f).isName = e.isName := by
  cases e <;> simp [Term.relined, Term.isName]

@[simp] theorem Term.length_relinedAll (es : List Term) :
    (Term.relinedAll f es).length = es.length := by
  induction es with
  | nil => rfl
  | cons e es ih => rw [Term.relinedAll, List.length_cons, List.length_cons, ih]

/-! ## The same lines -/

mutual

/-- An expression on its own lines. -/
theorem Term.relined_id (e : Term) : e.relined id = e := by
  match e with
  | .nil _ | .bool _ _ | .number _ _ | .string _ _ | .name _ _ => rfl
  | .assign x value => rw [Term.relined, value.relined_id]
  | .assignMember x m value => rw [Term.relined, value.relined_id]
  | .group e line => rw [Term.relined, e.relined_id, id]
  | .member e m line => rw [Term.relined, e.relined_id, id]
  | .unary op e => rw [Term.relined, e.relined_id]
  | .binary op lhs rhs => rw [Term.relined, lhs.relined_id, rhs.relined_id]
  | .call callee arguments line =>
    rw [Term.relined, callee.relined_id, Term.relinedAll_id arguments, id]

/-- Expressions that stay on their lines are the same. -/
theorem Term.relinedAll_id (es : List Term) : Term.relinedAll id es = es := by
  match es with
  | [] => rfl
  | e :: es => rw [Term.relinedAll, e.relined_id, Term.relinedAll_id es]

end

theorem Term.map_relined_id (e : Option Term) : e.map (Term.relined id) = e := by
  cases e with
  | none => rfl
  | some e => rw [Option.map_some, e.relined_id]

mutual

/-- A statement on its own lines, with its own numbers of functions. -/
theorem Clause.relined_id (s : Clause) : s.relined id 0 = s := by
  match s with
  | .expr e line | .print e line => rw [Clause.relined, e.relined_id, id]
  | .declare x nameLine init line => rw [Clause.relined, Term.map_relined_id, id, id]
  | .function site x parameters body line =>
    rw [Clause.relined, Clause.relinedAll_id body, Nat.sub_zero, id]
  | .ifThen cond line body | .loop cond line body =>
    rw [Clause.relined, cond.relined_id, body.relined_id, id]
  | .ifElse cond line body other =>
    rw [Clause.relined, cond.relined_id, body.relined_id, other.relined_id, id]
  | .ret value line => rw [Clause.relined, Term.map_relined_id, id]
  | .yield _ | .stop _ => rfl
  | .block body line => rw [Clause.relined, Clause.relinedAll_id body, id]

/-- Statements that stay on their lines are the same. -/
theorem Clause.relinedAll_id (ss : List Clause) : Clause.relinedAll id 0 ss = ss := by
  match ss with
  | [] => rfl
  | s :: ss => rw [Clause.relinedAll, s.relined_id, Clause.relinedAll_id ss]

end

/-! ## The grammar -/

/-- An expression stays one on other lines. -/
theorem Derives.relined {φ : Phrase} (h : Derives ts φ) :
    Derives (ts.map (Token.relined f)) (φ.relined f) := by
  induction h with
  | nil ht => exact .nil ht
  | yes ht => exact .yes ht
  | no ht => exact .no ht
  | number ht => exact .number ht
  | string ht => exact .string ht
  | name ht => exact .name ht
  | group hlp _ hrp ih =>
    rw [List.map_append, List.map_cons]
    exact .group hlp ih hrp
  | member _ hdot hm ih =>
    rw [List.map_append]
    exact .member ih hdot hm
  | call _ hlp hrp ih =>
    rw [List.map_append]
    exact .call ih hlp hrp
  | callWith _ hlp _ hrp ih ihs =>
    rw [List.map_append, List.map_append, List.map_cons]
    exact .callWith ih hlp ihs hrp
  | unary hop _ ih => exact .unary hop ih
  | binary _ hop _ ih ih' =>
    rw [List.map_append, List.map_cons]
    exact .binary ih hop ih'
  | assign hx heq _ ih => exact .assign hx heq ih
  | assignMember hx hdot hm heq _ ih => exact .assignMember hx hdot hm heq ih
  | stronger _ ih => exact .stronger ih
  | last _ ih => exact .last ih
  | more _ hcomma _ ih ihs =>
    rw [List.map_append, List.map_cons]
    exact .more ih hcomma ihs

/-- The lines of parameters are of no concern. -/
theorem Parameters.relined {xs : List String} (h : Parameters ts xs) :
    Parameters (ts.map (Token.relined f)) xs := by
  induction h with
  | last hx => exact .last hx
  | more hx hcomma _ ih => exact .more hx hcomma ih

/-- A script stays one on other lines. -/
theorem Spells.relined {σ : Sentence} (h : Spells ts σ) :
    Spells (ts.map (Token.relined f)) (σ.relined f d) := by
  induction h with
  | expr he hsemi =>
    rw [List.map_append]
    exact .expr he.relined hsemi
  | print hkw he hsemi =>
    rw [List.map_append, List.map_cons]
    exact .print hkw he.relined hsemi
  | ifThen hkw hlp he hrp _ ih =>
    rw [List.map_append, List.map_cons, List.map_cons, List.map_cons]
    exact .ifThen hkw hlp he.relined hrp ih
  | ifElse hkw hlp he hrp _ hopen hel _ ih ih' =>
    simp only [List.map_append, List.map_cons]
    exact .ifElse hkw hlp he.relined hrp ih (by rw [Clause.isOpen_relined, hopen]) hel ih'
  | loop hkw hlp he hrp _ ih =>
    rw [List.map_append, List.map_cons, List.map_cons, List.map_cons]
    exact .loop hkw hlp he.relined hrp ih
  | ret hkw hsemi => exact .ret hkw hsemi
  | retWith hkw he hsemi =>
    rw [List.map_append, List.map_cons]
    exact .retWith hkw he.relined hsemi
  | yield hkw hsemi => exact .yield hkw hsemi
  | stop hkw hsemi => exact .stop hkw hsemi
  | block hlb _ hrb ih =>
    rw [List.map_append, List.map_cons]
    exact .block hlb ih hrb
  | ofStatement _ ih => exact .ofStatement ih
  | declare hkw hx hsemi => exact .declare hkw hx hsemi
  | declareWith hkw hx heq he hsemi =>
    rw [List.map_append]
    exact .declareWith hkw hx heq he.relined hsemi
  | function site hkw hx hlp hrp hlb _ hrb ih =>
    rw [List.map_append]
    exact .function _ hkw hx hlp hrp hlb ih hrb
  | functionWith site hkw hx hlp hps hrp hlb _ hrb ih =>
    simp only [List.map_append, List.map_cons]
    exact .functionWith _ hkw hx hlp hps.relined hrp hlb ih hrb
  | none => exact .none
  | more _ _ ih ihs =>
    rw [List.map_append]
    exact .more ih ihs

end

end EntityScript
