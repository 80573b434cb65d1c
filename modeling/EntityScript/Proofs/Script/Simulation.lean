/-
# Expressions resolved in two contexts

Two contexts may differ in what they know and still resolve an expression to the same tree.  What
that takes is said once, for any relation between contexts, with a clause for each thing that the
resolution of names, numbers and texts does to a context (`Context.Simulation`).  An expression is
then gone through once for all such relations (`Context.Simulation.elaborate`).
-/
import EntityScript.Proofs.Script.Accompanying
import EntityScript.Proofs.Script.Elaborate

namespace EntityScript

namespace Context

/-- Related contexts have the same scope, the second knows the globals of the first, and both find a
text and add a number or a text at the same index.  What is done to both leaves them related. -/
structure Simulation (R : Context → Context → Prop) : Prop where
  scope : ∀ {c c' : Context}, R c c' → c'.scope = c.scope
  globals : ∀ {c c' : Context}, R c c' → c.globals ⊆ c'.globals
  indexOfString? : ∀ {c c' : Context}, R c c' → ∀ x,
    Literal.indexOfString? c'.literals x = Literal.indexOfString? c.literals x
  withScope : ∀ {c c' : Context}, R c c' → ∀ s, R { c with scope := s } { c' with scope := s }
  addGlobal : ∀ {c c' : Context}, R c c' → ∀ x, R (c.addGlobal x) (c'.addGlobal x)
  addLiteral? : ∀ {c c' : Context}, R c c' → ∀ l : Literal, (∀ f, l ≠ .function f) →
    Accompanies (Agree R) (c.addLiteral? l) (c'.addLiteral? l)

namespace Simulation

variable {R : Context → Context → Prop} {c c' : Context}

/-! ## Names and literals -/

/-- The text of a name is found by both or by neither, and then added to both. -/
theorem nameLiteral? (hR : Simulation R) (h : R c c') (x : String) :
    Accompanies (Agree R) (c.nameLiteral? x) (c'.nameLiteral? x) := by
  rw [Context.nameLiteral?, Context.nameLiteral?, hR.indexOfString? h]
  split
  · exact .some (.mk h)
  · exact hR.addLiteral? h (.string x) nofun

/-- A number is written among the literals of both, at the same index. -/
theorem number? (hR : Simulation R) (h : R c c') (text : String) (line : Nat) :
    Accompanies (Agree R) (c.number? text line) (c'.number? text line) := by
  rw [Context.number?, Context.number?]
  split
  · next n _ => exact Agree.map (hR.addLiteral? h (.int n) nofun) fun _ _ _ hd => .mk hd
  · next bits _ => exact Agree.map (hR.addLiteral? h (.float bits) nofun) fun _ _ _ hd => .mk hd
  · exact .none _

/-- What a name stands for does not change: the locals come first, and a global that was known still
is. -/
theorem resolve? (hR : Simulation R) (h : R c c') (x : String) :
    Accompanies (Agree R) (c.resolve? x) (c'.resolve? x) := by
  rw [Context.resolve?, Context.resolve?, hR.scope h]
  split
  · exact .none _
  · split
    · exact .some (.mk h)
    · exact .none _
    · split
      · next hx =>
        rw [if_pos (List.contains_iff_mem.mpr (hR.globals h (List.contains_iff_mem.mp hx)))]
        exact Agree.map (hR.nameLiteral? h x) fun _ _ _ hd => .mk hd
      · exact .none _

/-! ## Declarations -/

/-- A name that can be declared in the first context can be declared in the second. -/
theorem declare? (hR : Simulation R) (h : R c c') (x : String) :
    Accompanies R (c.declare? x) (c'.declare? x) := by
  rw [Context.declare?, Context.declare?, hR.scope h]
  split
  · exact .some h
  · split
    · exact .none _
    · have hadd : Accompanies Eq (c.scope.add? x) (c.scope.add? x) := fun s hs => ⟨s, hs, rfl⟩
      exact hadd.map fun s t hst => hst ▸ hR.withScope h s

theorem settle (hR : Simulation R) (h : R c c') : R c.settle c'.settle := by
  rw [Context.settle, Context.settle, hR.scope h]
  split
  · exact h
  · exact hR.withScope h _

theorem declareSettled? (hR : Simulation R) (h : R c c') (x : String) :
    Accompanies R (c.declareSettled? x) (c'.declareSettled? x) :=
  (hR.declare? h x).map fun _ _ hd => hR.settle hd

/-- The parameters of a function are declared on both sides, one after the other. -/
theorem declareAll? (hR : Simulation R) (h : R c c') (xs : List String) :
    Accompanies R (Context.declareAll? xs c) (Context.declareAll? xs c') := by
  induction xs generalizing c c' with
  | nil => exact .some h
  | cons x xs ih => exact (hR.declareSettled? h x).bind fun _ _ _ hd => ih hd

/-- A name that is declared is defined in the same place. -/
theorem define? (hR : Simulation R) (h : R c c') (x : String) :
    Accompanies (Agree R) (c.define? x) (c'.define? x) := by
  rw [Context.define?, Context.define?, hR.scope h]
  split
  · exact Agree.map (hR.nameLiteral? h x) fun _ _ _ hd => .mk (hR.addGlobal hd x)
  · exact .some (.mk (hR.settle h))

/-- The name of a function is declared alike, among the locals or the globals. -/
theorem declareFunction? (hR : Simulation R) (h : R c c') (x : String) :
    Accompanies R (c.declareFunction? x) (c'.declareFunction? x) := by
  rw [Context.declareFunction?, Context.declareFunction?, hR.scope h]
  split
  · exact .some (hR.addGlobal h x)
  · exact hR.declareSettled? h x

/-! ## Blocks -/

/-- A block is entered on both sides. -/
theorem enter (hR : Simulation R) (h : R c c') : R c.enter c'.enter := by
  rw [Context.enter, Context.enter, hR.scope h]
  exact hR.withScope h _

/-- The locals of a block are dropped on both sides. -/
theorem leave (hR : Simulation R) (h : R c c') : R c.leave c'.leave := by
  rw [Context.leave, Context.leave, hR.scope h]
  exact hR.withScope h _

/-! ## Expressions -/

mutual

/-- An expression is resolved to the same tree in both contexts. -/
theorem elaborate (hR : Simulation R) {c c' : Context} (head : Bool) (e : Term) (h : R c c') :
    Accompanies (Agree R) (e.elaborate head c) (e.elaborate head c') := by
  cases e with
  | nil line | bool b line =>
    rw [Term.elaborate, Term.elaborate]
    exact .some (.mk h)
  | number text line =>
    rw [Term.elaborate, Term.elaborate]
    exact hR.number? h text line
  | string text line =>
    rw [Term.elaborate, Term.elaborate]
    exact Agree.bind (hR.addLiteral? h (.string (unquote text)) nofun) fun _ _ _ _ hd =>
      .some (.mk hd)
  | name x line =>
    rw [Term.elaborate, Term.elaborate]
    exact Agree.bind (hR.resolve? h x) fun _ _ _ _ hd => .some (.mk hd)
  | assign x value =>
    rw [Term.elaborate, Term.elaborate]
    exact Agree.bind (hR.resolve? h x) fun _ _ _ _ hd =>
      Agree.bind (hR.elaborate true value hd) fun _ _ _ _ he => .some (.mk he)
  | assignMember x m value =>
    rw [Term.elaborate, Term.elaborate]
    exact Agree.bind (hR.resolve? h x) fun _ _ _ _ hd => .same (Member.ofName? m) fun _ =>
      Agree.bind (hR.elaborate true value hd) fun _ _ _ _ he => .some (.mk he)
  | group e line =>
    rw [Term.elaborate, Term.elaborate]
    exact hR.elaborate true e h
  | member e m line =>
    -- at the head of an expression, a member of a name has a rule of its own
    by_cases hhead : head = true ∧ e.isName = true
    · obtain ⟨rfl, hname⟩ := hhead
      cases e with
      | name x l =>
        rw [Term.elaborate, Term.elaborate]
        exact Agree.bind (hR.resolve? h x) fun _ _ _ _ hd => .same (Member.ofName? m) fun _ =>
          .some (.mk hd)
      | nil | bool | number | string | assign | assignMember | group | member | unary | binary
      | call =>
        cases hname
    · have hplain : head = true → e.isName = false := by simpa using hhead
      rw [Term.elaborate_member _ _ _ hplain, Term.elaborate_member _ _ _ hplain]
      exact Agree.bind (hR.elaborate head e h) fun _ _ _ _ hd =>
        .same (Member.ofName? m) fun _ => .some (.mk hd)
  | unary op e =>
    rw [Term.elaborate, Term.elaborate]
    exact Agree.bind (hR.elaborate false e h) fun _ _ _ _ hd => .some (.mk hd)
  | binary op lhs rhs =>
    rw [Term.elaborate, Term.elaborate]
    exact Agree.bind (hR.elaborate head lhs h) fun _ _ _ _ hd =>
      Agree.bind (hR.elaborate false rhs hd) fun _ _ _ _ he => .some (.mk he)
  | call callee arguments line =>
    rw [Term.elaborate, Term.elaborate]
    exact Agree.bind (hR.elaborate head callee h) fun _ _ _ _ hd =>
      Agree.bind (hR.elaborateAll arguments hd) fun _ _ _ _ he => .same (guard _) fun _ =>
        .some (.mk he)

/-- Expressions one after the other are resolved to the same trees. -/
theorem elaborateAll (hR : Simulation R) {c c' : Context} (es : List Term) (h : R c c') :
    Accompanies (Agree R) (Term.elaborateAll es c) (Term.elaborateAll es c') := by
  cases es with
  | nil =>
    rw [Term.elaborateAll, Term.elaborateAll]
    exact .some (.mk h)
  | cons e es =>
    rw [Term.elaborateAll, Term.elaborateAll]
    exact Agree.bind (hR.elaborate true e h) fun _ _ _ _ hd =>
      Agree.bind (hR.elaborateAll es hd) fun _ _ _ _ he => .some (.mk he)

end

/-- The first value of a variable is resolved alike, written or not. -/
theorem value? (hR : Simulation R) (h : R c c') (line : Nat) (value : Option Term) :
    Accompanies (Agree R) (c.value? line value) (c'.value? line value) := by
  cases value with
  | none => exact .some (.mk h)
  | some e => exact hR.elaborate true e h

end Simulation

end Context

end EntityScript
