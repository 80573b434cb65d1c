/-
# Trees that fit a function

A tree fits a function with given literals and a given number of locals if everything it names is
there: each literal is at its index, each local lies between slot zero and the locals in sight, and
each function statement has its compiled body among the literals.

Whether a statement leaves a new local behind can be read off the tree (`Stmt.locals`).  The bodies
of conditionals and loops leave none, and a block drops exactly those that its statements left.
-/
import EntityScript.Proofs.Tree.Postorder

namespace EntityScript

/-- The number of locals that a place takes up when a variable is declared there. -/
def Place.locals : Place → Nat
  | .slot _ => 1
  | .global _ => 0

/-- The number of locals that a statement declares and leaves behind. -/
def Stmt.locals : Stmt → Nat
  | .declare v _ _ => v.place.locals
  | .function v _ _ _ _ _ => v.place.locals
  | _ => 0

/-- The number of locals that the statements of a block declare themselves. -/
def Block.locals : Block → Nat
  | .empty => 0
  | .append before last => before.locals + last.locals

mutual

/-- The bodies of the functions that a statement declares, to any depth. -/
def Stmt.bodies : Stmt → List Block
  | .function _ _ body _ _ _ => body :: body.bodies
  | .ifThen _ body _ _ => body.bodies
  | .ifElse _ body other _ _ => body.bodies ++ other.bodies
  | .loop _ body _ _ => body.bodies
  | .block body _ _ => body.bodies
  | .expr _ _ | .print _ _ | .declare _ _ _ | .ret _ _ | .yield _ | .stop _ => []

/-- The bodies of the functions that the statements of a block declare, to any depth. -/
def Block.bodies : Block → List Block
  | .empty => []
  | .append before last => before.bodies ++ last.bodies

end

/-- A variable that is used is a local in sight or a global whose name is among the literals. -/
def Variable.Fits (locals : Nat) (literals : List Literal) (v : Variable) : Prop :=
  match v.place with
  | .slot n => 1 ≤ n ∧ n < locals
  | .global index => literals[index]? = some (.string v.name)

/-- The instructions that read or change what is in a place. -/
inductive Place.Access (place : Place) : Instruction → Prop
  | get : place.Access place.getter
  | set : place.Access place.setter
  | setMember (m : Member) : place.Access (place.memberSetter m)

/-- A variable that is declared is the next local or a global whose name is among the literals. -/
def Variable.FitsNew (locals : Nat) (literals : List Literal) (v : Variable) : Prop :=
  match v.place with
  | .slot n => n = locals
  | .global index => literals[index]? = some (.string v.name)

mutual

/-- An expression fits a function in which this many locals can be read. -/
def Expr.Fits (locals : Nat) (literals : List Literal) : Expr → Prop
  | .nil _ => True
  | .bool _ _ => True
  | .int n index _ => literals[index]? = some (.int n)
  | .float bits index _ => literals[index]? = some (.float bits)
  | .string text index _ => literals[index]? = some (.string text)
  | .get v _ => v.Fits locals literals
  | .set v value _ => v.Fits locals literals ∧ value.Fits locals literals
  | .member e _ _ => e.Fits locals literals
  | .setMember v _ value _ => v.Fits locals literals ∧ value.Fits locals literals
  | .unary _ e _ => e.Fits locals literals
  | .binary _ lhs rhs _ => lhs.Fits locals literals ∧ rhs.Fits locals literals
  | .call callee arguments _ =>
    callee.Fits locals literals ∧ Expr.FitsAll locals literals arguments ∧
      arguments.length ≤ maxArguments
  | .invalid _ => False

/-- All of several expressions fit. -/
def Expr.FitsAll (locals : Nat) (literals : List Literal) : List Expr → Prop
  | [] => True
  | e :: es => e.Fits locals literals ∧ Expr.FitsAll locals literals es

end

mutual

/-- A statement fits a function in which this many locals are in sight. -/
def Stmt.Fits (locals : Nat) (literals : List Literal) : Stmt → Prop
  | .expr e _ => e.Fits locals literals
  | .print e _ => e.Fits locals literals
  | .declare v init _ => init.Fits locals literals ∧ v.FitsNew locals literals
  | .function v parameters body lastLine index _ =>
    v.FitsNew locals literals ∧ ∃ id inner,
      literals[index]? = some (.function
        (.ofBody id (some v.name) parameters.length inner body lastLine)) ∧
      body.Fits (1 + parameters.length) inner
  | .ifThen cond body _ _ =>
    cond.Fits locals literals ∧ body.Fits locals literals ∧ body.locals = 0
  | .ifElse cond body other _ _ =>
    cond.Fits locals literals ∧ (body.Fits locals literals ∧ body.locals = 0) ∧
      other.Fits locals literals ∧ other.locals = 0
  | .loop cond body _ _ =>
    cond.Fits locals literals ∧ body.Fits locals literals ∧ body.locals = 0
  | .ret e _ => e.Fits locals literals
  | .yield _ => True
  | .stop _ => True
  | .block body dropped _ => body.Fits locals literals ∧ dropped = body.locals

/-- The statements of a block fit one after the other. -/
def Block.Fits (locals : Nat) (literals : List Literal) : Block → Prop
  | .empty => True
  | .append before last =>
    before.Fits locals literals ∧ last.Fits (locals + before.locals) literals

end

/-! ## More literals -/

/-- The entry at an index of a list stays when the list grows. -/
theorem getElem?_append_of_some {l : Literal} {ls more : List Literal} {i : Nat}
    (h : ls[i]? = some l) : (ls ++ more)[i]? = some l := by
  rw [List.getElem?_append_left (List.getElem?_eq_some_iff.mp h).1]
  exact h

/-- A variable that fits goes on fitting when literals are added. -/
theorem Variable.Fits.append {locals : Nat} {ls : List Literal} {v : Variable}
    (h : v.Fits locals ls) (more : List Literal) : v.Fits locals (ls ++ more) := by
  obtain ⟨name, place⟩ := v
  cases place with
  | slot n => exact h
  | global index => exact getElem?_append_of_some h

theorem Variable.FitsNew.append {locals : Nat} {ls : List Literal} {v : Variable}
    (h : v.FitsNew locals ls) (more : List Literal) : v.FitsNew locals (ls ++ more) := by
  obtain ⟨name, place⟩ := v
  cases place with
  | slot n => exact h
  | global index => exact getElem?_append_of_some h

mutual

/-- A tree that fits still fits when further literals are added. -/
theorem Expr.Fits.append {locals : Nat} {ls : List Literal} (more : List Literal) :
    {e : Expr} → e.Fits locals ls → e.Fits locals (ls ++ more)
  | .nil _, _ => trivial
  | .bool _ _, _ => trivial
  | .int _ _ _, h => getElem?_append_of_some h
  | .float _ _ _, h => getElem?_append_of_some h
  | .string _ _ _, h => getElem?_append_of_some h
  | .get _ _, h => Variable.Fits.append h more
  | .set _ _ _, h => ⟨h.1.append more, h.2.append more⟩
  | .member e _ _, h => Expr.Fits.append (e := e) more h
  | .setMember _ _ _ _, h => ⟨h.1.append more, h.2.append more⟩
  | .unary _ e _, h => Expr.Fits.append (e := e) more h
  | .binary _ _ _ _, h => ⟨h.1.append more, h.2.append more⟩
  | .call _ _ _, h => ⟨h.1.append more, Expr.FitsAll.append more h.2.1, h.2.2⟩

theorem Expr.FitsAll.append {locals : Nat} {ls : List Literal} (more : List Literal) :
    {es : List Expr} → Expr.FitsAll locals ls es → Expr.FitsAll locals (ls ++ more) es
  | [], _ => trivial
  | _ :: _, h => ⟨h.1.append more, Expr.FitsAll.append more h.2⟩

end

mutual

/-- A statement goes on fitting: its names and functions stay where they are. -/
theorem Stmt.Fits.append {ls : List Literal} (more : List Literal) :
    {locals : Nat} → {s : Stmt} → s.Fits locals ls → s.Fits locals (ls ++ more)
  | _, .expr e _, h => Expr.Fits.append (e := e) more h
  | _, .print e _, h => Expr.Fits.append (e := e) more h
  | _, .declare _ _ _, h => ⟨h.1.append more, h.2.append more⟩
  | _, .function _ _ _ _ _ _, h => by
    obtain ⟨hv, id, inner, hf, hb⟩ := h
    exact ⟨hv.append more, id, inner, getElem?_append_of_some hf, hb⟩
  | _, .ifThen _ _ _ _, h => ⟨h.1.append more, h.2.1.append more, h.2.2⟩
  | _, .ifElse _ _ _ _ _, h =>
    ⟨h.1.append more, ⟨h.2.1.1.append more, h.2.1.2⟩, h.2.2.1.append more, h.2.2.2⟩
  | _, .loop _ _ _ _, h => ⟨h.1.append more, h.2.1.append more, h.2.2⟩
  | _, .ret e _, h => Expr.Fits.append (e := e) more h
  | _, .yield _, _ => trivial
  | _, .stop _, _ => trivial
  | _, .block _ _ _, h => ⟨Block.Fits.append more h.1, h.2⟩

theorem Block.Fits.append {ls : List Literal} (more : List Literal) :
    {locals : Nat} → {b : Block} → b.Fits locals ls → b.Fits locals (ls ++ more)
  | _, .empty, _ => trivial
  | _, .append _ _, h => ⟨Block.Fits.append more h.1, h.2.append more⟩

end

end EntityScript
