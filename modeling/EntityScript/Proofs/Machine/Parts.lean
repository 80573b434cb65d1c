/-
# Where the parts of a function are

An expression that is written somewhere in a function, itself or as a part of another one, has code
of its own in the compiled function, all in one place (`Routine.Compiled.found`).  Functions that
are declared in it do not count: their code is theirs.
-/
import EntityScript.Proofs.Machine.Execution

namespace EntityScript

/-! ## Parts -/

/-- An expression is written in another one. -/
inductive Term.Part (d : Term) : Term → Prop where
  | self : Term.Part d d
  | assign {x : String} {value : Term} : Term.Part d value → Term.Part d (.assign x value)
  | assignMember {x m : String} {value : Term} :
    Term.Part d value → Term.Part d (.assignMember x m value)
  | group {e : Term} {line : Nat} : Term.Part d e → Term.Part d (.group e line)
  | member {e : Term} {m : String} {line : Nat} : Term.Part d e → Term.Part d (.member e m line)
  | unary {op : UnaryOp} {e : Term} : Term.Part d e → Term.Part d (.unary op e)
  | left {op : BinaryOp} {lhs rhs : Term} : Term.Part d lhs → Term.Part d (.binary op lhs rhs)
  | right {op : BinaryOp} {lhs rhs : Term} : Term.Part d rhs → Term.Part d (.binary op lhs rhs)
  | callee {callee : Term} {arguments : List Term} {line : Nat} :
    Term.Part d callee → Term.Part d (.call callee arguments line)
  | argument {callee e : Term} {arguments : List Term} {line : Nat} :
    e ∈ arguments → Term.Part d e → Term.Part d (.call callee arguments line)

/-- An expression is written in a statement, outside of the functions that are declared there. -/
inductive Clause.Part (d : Term) : Clause → Prop where
  | expr {e : Term} {line : Nat} : d.Part e → Clause.Part d (.expr e line)
  | print {e : Term} {line : Nat} : d.Part e → Clause.Part d (.print e line)
  | declare {x : String} {nameLine line : Nat} {e : Term} :
    d.Part e → Clause.Part d (.declare x nameLine (some e) line)
  | ifThenCond {cond : Term} {line : Nat} {body : Clause} :
    d.Part cond → Clause.Part d (.ifThen cond line body)
  | ifThenBody {cond : Term} {line : Nat} {body : Clause} :
    Clause.Part d body → Clause.Part d (.ifThen cond line body)
  | ifElseCond {cond : Term} {line : Nat} {body other : Clause} :
    d.Part cond → Clause.Part d (.ifElse cond line body other)
  | ifElseBody {cond : Term} {line : Nat} {body other : Clause} :
    Clause.Part d body → Clause.Part d (.ifElse cond line body other)
  | ifElseOther {cond : Term} {line : Nat} {body other : Clause} :
    Clause.Part d other → Clause.Part d (.ifElse cond line body other)
  | loopCond {cond : Term} {line : Nat} {body : Clause} :
    d.Part cond → Clause.Part d (.loop cond line body)
  | loopBody {cond : Term} {line : Nat} {body : Clause} :
    Clause.Part d body → Clause.Part d (.loop cond line body)
  | ret {e : Term} {line : Nat} : d.Part e → Clause.Part d (.ret (some e) line)
  | block {s : Clause} {ss : List Clause} {line : Nat} :
    s ∈ ss → Clause.Part d s → Clause.Part d (.block ss line)

/-- An expression is written in a function. -/
def Routine.Part (d : Term) (r : Routine) : Prop :=
  ∃ s ∈ r.body, Clause.Part d s

/-! ## Their code -/

/-- A piece of code has that of an expression in it. -/
def Term.Found (literals : List Literal) (code : List Placed) (d : Term) : Prop :=
  ∃ names t, d.Stands literals names t ∧ t.postorder <:+: code

variable {literals : List Literal} {names : List String} {code more : List Placed} {d e : Term}

namespace Term

/-- What is found in some code is found in any code around it. -/
theorem Found.mono (h : d.Found literals code) (hcode : code <:+: more) :
    d.Found literals more := by
  obtain ⟨names, t, ht, hin⟩ := h
  exact ⟨names, t, ht, hin.trans hcode⟩

/-- One of several expressions stands for a tree, whose code is among theirs. -/
theorem StandsAll.exists_of_mem {es : List Term} {ts : List Expr}
    (h : StandsAll literals names es ts) (he : e ∈ es) : ∃ t, e.Stands literals names t ∧
    t.postorder <:+: Expr.postorderAll ts := by
  induction es generalizing ts with
  | nil => cases he
  | cons e' es ih =>
    cases h with
    | @cons _ t _ ts h hall =>
      rcases List.mem_cons.mp he with rfl | he
      · exact ⟨t, h, (List.prefix_append _ _).isInfix⟩
      · obtain ⟨u, hu, hin⟩ := ih hall he
        exact ⟨u, hu, hin.trans (List.suffix_append _ _).isInfix⟩

/-- The code of an expression has that of its parts. -/
theorem Stands.found {t : Expr} (h : e.Stands literals names t) (hd : d.Part e) :
    d.Found literals t.postorder := by
  -- along the way from the part to the whole, the code only gets longer on both sides
  induction hd generalizing t with
  | self => exact ⟨names, t, h, List.infix_rfl⟩
  | assign _ ih =>
    cases h with
    | assign _ h => exact (ih h).mono (List.prefix_append _ _).isInfix
  | assignMember _ ih =>
    cases h with
    | assignMember _ _ h => exact (ih h).mono (List.prefix_append _ _).isInfix
  | group _ ih =>
    cases h with
    | group h => exact ih h
  | member _ ih =>
    cases h with
    | member h => exact (ih h).mono (List.prefix_append _ _).isInfix
  | unary _ ih =>
    cases h with
    | unary h => exact (ih h).mono (List.prefix_append _ _).isInfix
  | left _ ih =>
    cases h with
    | binary h h' =>
      rw [Expr.postorder, List.append_assoc]
      exact (ih h).mono (List.prefix_append _ _).isInfix
  | right _ ih =>
    cases h with
    | binary h h' => exact (ih h').mono (List.infix_append _ _ _)
  | callee _ ih =>
    cases h with
    | call h hall _ =>
      rw [Expr.postorder, List.append_assoc]
      exact (ih h).mono (List.prefix_append _ _).isInfix
  | argument he _ ih =>
    cases h with
    | call h hall _ =>
      obtain ⟨t, ht, hin⟩ := hall.exists_of_mem he
      exact ((ih ht).mono hin).mono (List.infix_append _ _ _)

end Term

namespace Clause

variable {unit : Nat} {top : Bool}

theorem StandsAll.exists_of_mem {s : Clause} {ss : List Clause} {ts : List Stmt}
    (h : StandsAll unit literals top names ss ts) (hs : s ∈ ss) :
    ∃ names t, s.Stands unit literals top names t ∧ t.postorder <:+: ts.flatMap Stmt.postorder := by
  induction ss generalizing names ts with
  | nil => cases hs
  | cons s' ss ih =>
    cases h with
    | @cons _ _ _ _ _ t ts h hall =>
      rw [List.flatMap_cons]
      rcases List.mem_cons.mp hs with rfl | hs
      · exact ⟨names, t, h, (List.prefix_append _ _).isInfix⟩
      · obtain ⟨names', u, hu, hin⟩ := ih hall hs
        exact ⟨names', u, hu, hin.trans (List.suffix_append _ _).isInfix⟩

/-- The code of a statement has that of the expressions in it. -/
theorem Stands.found {s : Clause} {t : Stmt} (h : s.Stands unit literals top names t)
    (hd : Clause.Part d s) :
    d.Found literals t.postorder := by
  -- the locals that can be read at the part are those of the block around it
  induction hd generalizing top names t with
  | expr hd =>
    cases h with
    | expr h => exact (h.found hd).mono (List.prefix_append _ _).isInfix
  | print hd =>
    cases h with
    | print h => exact (h.found hd).mono (List.prefix_append _ _).isInfix
  | declare hd =>
    cases h with
    | declare h _ =>
      cases h with
      | some h => exact (h.found hd).mono (List.prefix_append _ _).isInfix
  | ret hd =>
    cases h with
    | ret h =>
      cases h with
      | some h => exact (h.found hd).mono (List.prefix_append _ _).isInfix
  | ifThenCond hd =>
    cases h with
    | ifThen h _ _ =>
      simp only [Stmt.postorder, List.append_assoc]
      exact (h.found hd).mono (List.prefix_append _ _).isInfix
  | ifThenBody _ ih =>
    cases h with
    | ifThen _ h _ => exact (ih h).mono (List.infix_append _ _ _)
  | ifElseCond hd =>
    cases h with
    | ifElse h _ _ _ _ =>
      simp only [Stmt.postorder, List.append_assoc]
      exact (h.found hd).mono (List.prefix_append _ _).isInfix
  | ifElseBody _ ih =>
    cases h with
    | ifElse _ h _ _ _ =>
      rw [Stmt.postorder, List.append_assoc _ _ (Stmt.postorder _)]
      exact (ih h).mono (List.infix_append _ _ _)
  | ifElseOther _ ih =>
    cases h with
    | ifElse _ _ _ h _ => exact (ih h).mono (List.suffix_append _ _).isInfix
  | loopCond hd =>
    cases h with
    | loop h _ _ =>
      simp only [Stmt.postorder, List.append_assoc]
      exact (h.found hd).mono (List.prefix_append _ _).isInfix
  | loopBody _ ih =>
    cases h with
    | loop _ h _ => exact (ih h).mono (List.infix_append _ _ _)
  | block hs _ ih =>
    cases h with
    | @block _ _ _ _ b _ _ _ hall _ =>
      obtain ⟨names', t, ht, hin⟩ := hall.exists_of_mem hs
      rw [Stmt.postorder, b.postorder_eq]
      exact ((ih ht).mono hin).mono (List.prefix_append _ _).isInfix

end Clause

/-- A compiled function has the code of the expressions that are written in it. -/
theorem Routine.Compiled.found {r : Routine} {f : Function} (h : r.Compiled f) (hd : r.Part d) :
    d.Found f.chunk.literals f.chunk.code.toList := by
  obtain ⟨body, last, hf, hstands⟩ := h
  obtain ⟨s, hs, hd⟩ := hd
  obtain ⟨names, t, ht, hin⟩ := hstands.exists_of_mem hs
  have hcode : f.chunk.code.toList = body.toList.flatMap Stmt.postorder ++ placeOn last
    [.nil, .ret] := by
    rw [hf, ← body.postorder_eq]
    simp [Function.ofBody]
  rw [hcode]
  exact ((ht.found hd).mono hin).mono (List.prefix_append _ _).isInfix

end EntityScript
