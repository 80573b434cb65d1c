/-
# What resolved trees stand for

A resolved tree stands for the tree it was made from (`Term.Stands`, `Clause.Stands`): each place in
it is the one of the nearest local with the name that is written, or else a global with this name,
and each index is that of the literal that is written.  A compiled function stands for the function
declaration (`Routine.Compiled`).

The static rules give trees that stand for the script, and the functions of a program stand for
those of the script, one for one and in the same order (`compiled_of_program?`).
-/
import EntityScript.Proofs.Script.Fitting
import EntityScript.Proofs.Script.Meaning
import Mathlib.Data.List.Forall2
import Mathlib.Data.List.TakeWhile

namespace EntityScript

/-! ## Standing for a tree -/

/-- A place is that of a variable with the given name, if these are the locals that can be read, the
nearest first.  Slot zero is below all of them. -/
def Variable.Stands (literals : List Literal) (names : List String) (x : String) (v : Variable) :
    Prop :=
  match v.place with
  | .slot n => ∃ inner outer, names = inner ++ x :: outer ∧ x ∉ inner ∧ n = outer.length + 1
  | .global index => x ∉ names ∧ literals[index]? = some (.string x)

/-- A place is that of a new variable. -/
def Variable.Declares (literals : List Literal) (top : Bool) (x : String) (v : Variable) : Prop :=
  match v.place with
  | .slot _ => top = false
  | .global index => top = true ∧ literals[index]? = some (.string x)

mutual

/-- A resolved expression stands for one that is written. -/
inductive Term.Stands (literals : List Literal) (names : List String) : Term → Expr → Prop
  | nil {l l' : Nat} : Term.Stands literals names (.nil l) (.nil l')
  | bool {b : Bool} {l l' : Nat} : Term.Stands literals names (.bool b l) (.bool b l')
  | int {text : String} {n : Int64} {index l l' : Nat} : numberLiteral? text = some (.int n) →
    literals[index]? = some (.int n) → Term.Stands literals names (.number text l) (.int n index l')
  | float {text : String} {bits : UInt64} {index l l' : Nat} :
    numberLiteral? text = some (.float bits) →
    literals[index]? = some (.float bits) →
    Term.Stands literals names (.number text l) (.float bits index l')
  | string {text : String} {index l l' : Nat} : literals[index]? = some (.string (unquote text)) →
    Term.Stands literals names (.string text l) (.string (unquote text) index l')
  | name {x : String} {v : Variable} {l l' : Nat} : v.Stands literals names x →
    Term.Stands literals names (.name x l) (.get v l')
  | assign {x : String} {v : Variable} {e : Term} {t : Expr} {l : Nat} : v.Stands literals names x →
    Term.Stands literals names e t → Term.Stands literals names (.assign x e) (.set v t l)
  | assignMember {x m : String} {mem : Member} {v : Variable} {e : Term} {t : Expr} {l : Nat} :
    v.Stands literals names x → Member.ofName? m = some mem → Term.Stands literals names e t →
    Term.Stands literals names (.assignMember x m e) (.setMember v mem t l)
  | group {e : Term} {t : Expr} {l : Nat} : Term.Stands literals names e t →
    Term.Stands literals names (.group e l) t
  | member {e : Term} {t : Expr} {m : String} {mem : Member} {l l' : Nat} :
    Term.Stands literals names e t → Member.ofName? m = some mem →
    Term.Stands literals names (.member e m l) (.member t mem l')
  | unary {op : UnaryOp} {e : Term} {t : Expr} {l : Nat} : Term.Stands literals names e t →
    Term.Stands literals names (.unary op e) (.unary op t l)
  | binary {op : BinaryOp} {lhs rhs : Term} {t u : Expr} {l : Nat} :
    Term.Stands literals names lhs t → Term.Stands literals names rhs u →
    Term.Stands literals names (.binary op lhs rhs) (.binary op t u l)
  | call {callee : Term} {t : Expr} {es : List Term} {ts : List Expr} {l l' : Nat} :
    Term.Stands literals names callee t → Term.StandsAll literals names es ts →
    ts.length ≤ maxArguments → Term.Stands literals names (.call callee es l) (.call t ts l')

/-- Resolved expressions stand for those that are written. -/
inductive Term.StandsAll (literals : List Literal) (names : List String) :
    List Term → List Expr → Prop
  | nil : Term.StandsAll literals names [] []
  | cons {e : Term} {t : Expr} {es : List Term} {ts : List Expr} : Term.Stands literals names e t →
    Term.StandsAll literals names es ts → Term.StandsAll literals names (e :: es) (t :: ts)

end

/-- A resolved value stands for one that may be left out. -/
inductive Term.StandsOpt (literals : List Literal) (names : List String) : Option Term → Expr → Prop
  | none {l : Nat} : Term.StandsOpt literals names none (.nil l)
  | some {e : Term} {t : Expr} : e.Stands literals names t →
    Term.StandsOpt literals names (some e) t

/-- The locals that can be read after a statement. -/
def Clause.scope (top : Bool) (names : List String) : Clause → List String
  | .declare x _ _ _ | .function _ x _ _ _ => if top then names else x :: names
  | _ => names

mutual

/-- A resolved statement of a function of the compilation `unit` stands for one that is written. -/
inductive Clause.Stands (unit : Nat) :
    List Literal → Bool → List String → Clause → Stmt → Prop
  | expr {ls : List Literal} {top : Bool} {names : List String} {e : Term} {t : Expr} {l l' : Nat} :
    e.Stands ls names t → Clause.Stands unit ls top names (.expr e l) (.expr t l')
  | print {ls : List Literal} {top : Bool} {names : List String} {e : Term} {t : Expr}
      {l l' : Nat} :
    e.Stands ls names t → Clause.Stands unit ls top names (.print e l) (.print t l')
  | declare {ls : List Literal} {top : Bool} {names : List String} {x : String} {v : Variable}
      {init : Option Term} {t : Expr} {k l l' : Nat} :
    Term.StandsOpt ls names init t → v.Declares ls top x →
    Clause.Stands unit ls top names (.declare x k init l) (.declare v t l')
  | function {ls inner : List Literal} {top : Bool} {names : List String} {x : String}
      {v : Variable} {ps : List String} {ss : List Clause} {b : Block}
      {site index last l l' : Nat} :
    ls[index]? = some (.function (.ofBody ⟨unit, site⟩ (some x) ps.length inner b last)) →
    Clause.StandsAll unit inner false ps.reverse ss b.toList → v.Declares ls top x →
    Clause.Stands unit ls top names (.function site x ps ss l) (.function v ps b last index l')
  | ifThen {ls : List Literal} {top : Bool} {names : List String} {cond : Term} {t : Expr}
      {s : Clause} {b : Stmt} {k l l' : Nat} :
    cond.Stands ls names t → Clause.Stands unit ls top names s b → s.scope top names = names →
    Clause.Stands unit ls top names (.ifThen cond k s) (.ifThen t b l l')
  | ifElse {ls : List Literal} {top : Bool} {names : List String} {cond : Term} {t : Expr}
      {s o : Clause} {b d : Stmt} {k l l' : Nat} :
    cond.Stands ls names t → Clause.Stands unit ls top names s b → s.scope top names = names →
    Clause.Stands unit ls top names o d → o.scope top names = names →
    Clause.Stands unit ls top names (.ifElse cond k s o) (.ifElse t b d l l')
  | loop {ls : List Literal} {top : Bool} {names : List String} {cond : Term} {t : Expr}
      {s : Clause} {b : Stmt} {k l l' : Nat} :
    cond.Stands ls names t → Clause.Stands unit ls top names s b → s.scope top names = names →
    Clause.Stands unit ls top names (.loop cond k s) (.loop t b l l')
  | ret {ls : List Literal} {top : Bool} {names : List String} {value : Option Term} {t : Expr}
      {l l' : Nat} :
    Term.StandsOpt ls names value t → Clause.Stands unit ls top names (.ret value l) (.ret t l')
  | yield {ls : List Literal} {top : Bool} {names : List String} {l l' : Nat} :
    Clause.Stands unit ls top names (.yield l) (.yield l')
  | stop {ls : List Literal} {top : Bool} {names : List String} {l l' : Nat} :
    Clause.Stands unit ls top names (.stop l) (.stop l')
  | block {ls : List Literal} {top : Bool} {names : List String} {ss : List Clause} {b : Block}
      {dropped l l' : Nat} :
    Clause.StandsAll unit ls false names ss b.toList →
    (ss.foldl (fun ns s => s.scope false ns) names).length = names.length + dropped →
    Clause.Stands unit ls top names (.block ss l) (.block b dropped l')

/-- Resolved statements stand for those that are written, one after the other. -/
inductive Clause.StandsAll (unit : Nat) :
    List Literal → Bool → List String → List Clause → List Stmt → Prop
  | nil {ls : List Literal} {top : Bool} {names : List String} :
    Clause.StandsAll unit ls top names [] []
  | cons {ls : List Literal} {top : Bool} {names : List String} {s : Clause} {ss : List Clause}
      {t : Stmt} {ts : List Stmt} :
    Clause.Stands unit ls top names s t → Clause.StandsAll unit ls top (s.scope top names) ss ts →
    Clause.StandsAll unit ls top names (s :: ss) (t :: ts)

end

/-- A compiled function stands for one that is written. -/
def Routine.Compiled (r : Routine) (f : Function) : Prop :=
  ∃ body last, f = .ofBody r.id r.name r.parameters.length f.chunk.literals body last ∧
    Clause.StandsAll r.id.unit f.chunk.literals r.name.isNone r.parameters.reverse
    r.body body.toList

/-- A compiled function has the number of its declaration. -/
theorem Routine.Compiled.id_eq {r : Routine} {f : Function} (h : r.Compiled f) : f.id = r.id := by
  obtain ⟨body, last, hf, -⟩ := h
  rw [hf]
  rfl

theorem Routine.Compiled.arity_eq {r : Routine} {f : Function} (h : r.Compiled f) :
    f.arity = r.parameters.length := by
  obtain ⟨body, last, hf, -⟩ := h
  rw [hf]
  rfl

/-! ## Names in scope -/

namespace Scope

/-- The locals that can be read, the nearest first; above them are those that wait for their first
value. -/
def Names (s : Scope) (names : List String) : Prop :=
  ∃ pending named, s.locals = pending ++ named ++ [⟨"", some 0⟩] ∧ (∀ l ∈ pending, l.depth = none) ∧
    named.map Local.name = names

/-- A scope with these names has their slots, and slot zero below them. -/
theorem Names.readable {s : Scope} {names : List String} (h : s.Names names) :
    s.Readable (names.length + 1) := by
  obtain ⟨pending, named, hs, hp, rfl⟩ := h
  refine ⟨⟨pending, named ++ [⟨"", some 0⟩], ?_, ?_, hp⟩, pending ++ named, hs⟩
  · rw [hs, List.append_assoc]
  · simp

/-- If one of the locals that wait has a name, the search for the name ends among them. -/
theorem dropWhile_pending {x : String} {l : Local} {ls : List Local} (rest : List Local)
    (hl : l ∈ ls) (hne : ¬ (l.name != x) = true) (hall : ∀ k ∈ ls, k.depth = none) :
    ∃ k more, (ls ++ rest).dropWhile (·.name != x) = k :: more ∧ k.depth = none := by
  induction ls with
  | nil => cases hl
  | cons k ls ih =>
    rw [List.cons_append, List.dropWhile_cons]
    by_cases hk : (k.name != x) = true
    · rw [if_pos hk]
      rcases List.mem_cons.mp hl with rfl | hl
      · exact absurd hk hne
      · exact ih hl (fun k' hk' => hall k' (List.mem_cons_of_mem _ hk'))
    · rw [if_neg hk]
      exact ⟨k, _, rfl, hall k List.mem_cons_self⟩

/-- The local that a name stands for. -/
theorem Names.find? {s : Scope} {names : List String} {x : String} {slot : Nat} (h : s.Names names)
    (hx : x ≠ "") (hf : s.find? x = some (slot, true)) :
    ∃ inner outer, names = inner ++ x :: outer ∧ x ∉ inner ∧ slot = outer.length + 1 := by
  obtain ⟨pending, named, hs, hp, rfl⟩ := h
  rw [Scope.find?, hs, List.append_assoc] at hf
  -- those that wait are passed over, because they have no value
  have hpending : ∀ l ∈ pending, (l.name != x) = true := by
    intro l hl
    by_contra hne
    obtain ⟨k, more, hk, hnone⟩ := dropWhile_pending _ hl hne hp
    rw [hk] at hf
    simp [hnone] at hf
  rw [List.dropWhile_append_of_pos hpending] at hf
  clear hs hp hpending
  induction named with
  | nil =>
    by_cases hb : ("" != x) = true
    · simp [hb] at hf
    · simp only [bne_iff_ne, ne_eq, Decidable.not_not] at hb
      exact absurd hb.symm hx
  | cons l named ih =>
    by_cases hl : l.name = x
    · have hneg : ¬ (l.name != x) = true := by simp [hl]
      rw [List.cons_append, List.dropWhile_cons, if_neg hneg] at hf
      obtain ⟨hslot, -⟩ := Prod.mk.inj (Option.some.inj hf)
      refine ⟨[], named.map Local.name, by simp [hl], by simp, ?_⟩
      rw [← hslot]
      simp
    · have hpos : (l.name != x) = true := by simp [hl]
      rw [List.cons_append, List.dropWhile_cons, if_pos hpos] at hf
      obtain ⟨inner, outer, hnames, hnot, hslot⟩ := ih hf
      refine ⟨l.name :: inner, outer, by simp [hnames], ?_, hslot⟩
      simp [hnot, Ne.symm hl]

/-- A name that is not found is none of them. -/
theorem Names.find?_none {s : Scope} {names : List String} {x : String} (h : s.Names names)
    (hf : s.find? x = none) : x ∉ names := by
  obtain ⟨pending, named, hs, -, rfl⟩ := h
  have hnil : s.locals.dropWhile (·.name != x) = [] := by
    rw [Scope.find?] at hf
    split at hf
    · assumption
    · cases hf
  have hall := List.dropWhile_eq_nil_iff.mp hnil
  intro hmem
  obtain ⟨l, hl, rfl⟩ := List.mem_map.mp hmem
  have hne := hall l (by simp [hs, hl])
  simp at hne

/-- Of a tidy scope all locals can be read. -/
theorem Names.tidy {s : Scope} {names : List String} (h : s.Names names) (ht : s.Tidy) :
    s.locals.map Local.name = names ++ [""] := by
  obtain ⟨pending, named, hs, hp, rfl⟩ := h
  cases pending with
  | nil => simp [hs]
  | cons l pending =>
    obtain ⟨d, hd, -⟩ := ht.settled l (by simp [hs])
    rw [hp l List.mem_cons_self] at hd
    cases hd

/-- Further locals that have their values. -/
theorem Names.append {s : Scope} {names : List String} (h : s.Names names) (ht : s.Tidy)
    (new : List Local) (depth : Nat) :
    Names ⟨new ++ s.locals, depth⟩ (new.map Local.name ++ names) := by
  obtain ⟨pending, named, hs, hp, rfl⟩ := h
  cases pending with
  | nil => exact ⟨[], new ++ named, by simp [hs], by simp, by simp⟩
  | cons l pending =>
    obtain ⟨d, hd, -⟩ := ht.settled l (by simp [hs])
    rw [hp l List.mem_cons_self] at hd
    cases hd

end Scope

/-- A literal keeps its index when literals are added. -/
theorem getElem?_of_initial {ls ms : List Literal} (h : ls <+: ms) {i : Nat} {l : Literal}
    (hi : ls[i]? = some l) : ms[i]? = some l := by
  obtain ⟨more, rfl⟩ := h
  exact getElem?_append_of_some hi

namespace Context

/-- Literals that are added come behind the others. -/
theorem Adds.isPrefix {c c' : Context} {more : List Literal} (h : Adds c c' more) :
    c.literals <+: c'.literals := by
  rw [h.literals]
  exact List.prefix_append _ _

theorem Adds.names {c c' : Context} {more : List Literal} {names : List String} (h : Adds c c' more)
    (hs : c.scope.Names names) : c'.scope.Names names := by
  rw [h.scope]
  exact hs

/-- A name that is resolved stands for a variable. -/
theorem resolve?_stands {c c' : Context} {x : String} {v : Variable} {names : List String}
    {literals : List Literal} (hs : c.scope.Names names) (h : c.resolve? x = some (v, c'))
    (hl : c'.literals <+: literals) : v.Stands literals names x := by
  cases Variable.derives_iff.mpr h with
  | slot hx hfind => exact hs.find? hx hfind
  | global _ hfind _ hl' =>
    obtain ⟨more, -, hi⟩ := nameLiteral?_adds hl'
    exact ⟨hs.find?_none hfind, getElem?_of_initial hl hi⟩

end Context

/-! ## Expressions -/

open Context in
mutual

/-- The resolved tree of an expression stands for it. -/
theorem Term.elaborate_stands {c c' : Context} {head : Bool} {t : Expr} {names : List String}
    {literals : List Literal} (e : Term) (hs : c.scope.Names names)
    (h : e.elaborate head c = some (t, c')) (hl : c'.literals <+: literals) :
    e.Stands literals names t := by
  match e, Term.derives_iff.mpr h with
  | _, .nil => exact .nil
  | _, .bool => exact .bool
  | _, .int hn hi => exact .int hn (getElem?_of_initial hl (addLiteral?_adds hi rfl).2)
  | _, .float hn hi => exact .float hn (getElem?_of_initial hl (addLiteral?_adds hi rfl).2)
  | _, .string hi => exact .string (getElem?_of_initial hl (addLiteral?_adds hi rfl).2)
  | _, .name hv => exact .name (resolve?_stands hs hv hl)
  | .assign _ value, .assign hv ht =>
    obtain ⟨ls, ha, -⟩ := resolve?_spec hs.readable hv
    obtain ⟨ms, hb, -⟩ := value.elaborate_fits (ha.readable hs.readable) ht
    exact .assign (resolve?_stands hs hv (hb.isPrefix.trans hl))
      (value.elaborate_stands (ha.names hs) ht hl)
  | .assignMember _ _ value, .assignMember hv hm ht =>
    obtain ⟨ls, ha, -⟩ := resolve?_spec hs.readable hv
    obtain ⟨ms, hb, -⟩ := value.elaborate_fits (ha.readable hs.readable) ht
    exact .assignMember (resolve?_stands hs hv (hb.isPrefix.trans hl)) hm
      (value.elaborate_stands (ha.names hs) ht hl)
  | .group e _, .group ht => exact .group (e.elaborate_stands hs ht hl)
  | _, .memberOfName hv hm => exact .member (.name (resolve?_stands hs hv hl)) hm
  | .member e _ _, .member _ ht hm => exact .member (e.elaborate_stands hs ht hl) hm
  | .unary _ e, .unary ht => exact .unary (e.elaborate_stands hs ht hl)
  | .binary _ lhs rhs, .binary hlhs hrhs =>
    obtain ⟨ls, ha, -⟩ := lhs.elaborate_fits hs.readable hlhs
    obtain ⟨ms, hb, -⟩ := rhs.elaborate_fits (ha.readable hs.readable) hrhs
    exact .binary (lhs.elaborate_stands hs hlhs (hb.isPrefix.trans hl))
      (rhs.elaborate_stands (ha.names hs) hrhs hl)
  | .call callee arguments _, .call hf hts hmax =>
    obtain ⟨ls, ha, -⟩ := callee.elaborate_fits hs.readable hf
    obtain ⟨ms, hb, -, hlen⟩ := Term.elaborateAll_fits arguments (ha.readable hs.readable) hts
    refine .call (callee.elaborate_stands hs hf (hb.isPrefix.trans hl))
      (Term.elaborateAll_stands arguments (ha.names hs) hts hl) ?_
    rw [hlen]
    exact hmax

/-- The resolved trees of arguments stand for them. -/
theorem Term.elaborateAll_stands {c c' : Context} {ts : List Expr} {names : List String}
    {literals : List Literal} (es : List Term) (hs : c.scope.Names names)
    (h : Term.elaborateAll es c = some (ts, c')) (hl : c'.literals <+: literals) :
    Term.StandsAll literals names es ts := by
  match es, Term.derivesAll_iff.mpr h with
  | _, .nil => exact .nil
  | e :: es, .cons ht hts =>
    obtain ⟨ls, ha, -⟩ := e.elaborate_fits hs.readable ht
    obtain ⟨ms, hb, -, -⟩ := Term.elaborateAll_fits es (ha.readable hs.readable) hts
    exact .cons (e.elaborate_stands hs ht (hb.isPrefix.trans hl))
      (Term.elaborateAll_stands es (ha.names hs) hts hl)

end

/-- A value that may be left out stands for what was written. -/
theorem Context.value?_stands {c c' : Context} {line : Nat} {value : Option Term} {t : Expr}
    {names : List String} {literals : List Literal} (hs : c.scope.Names names)
    (h : c.value? line value = some (t, c')) (hl : c'.literals <+: literals) :
    Term.StandsOpt literals names value t := by
  cases value with
  | none =>
    obtain ⟨rfl, rfl⟩ := Prod.mk.inj (Option.some.inj h)
    exact .none
  | some e => exact .some (e.elaborate_stands hs h hl)

/-! ## Statements -/

/-- Between two contexts of one compilation literals have been added, whose functions stand for the
given ones. -/
def Context.Offers (c c' : Context) (routines : List Routine) : Prop :=
  c'.unit = c.unit ∧ ∃ more, c'.literals = c.literals ++ more ∧
    List.Forall₂ Routine.Compiled routines (Literal.familyAll more)

namespace Context

theorem Offers.isPrefix {c c' : Context} {rs : List Routine} (h : Offers c c' rs) :
    c.literals <+: c'.literals := by
  obtain ⟨-, more, hmore, -⟩ := h
  rw [hmore]
  exact List.prefix_append _ _

/-- Literals that are no functions offer none. -/
theorem Adds.offers {c c' : Context} {more : List Literal} (h : Adds c c' more) :
    Offers c c' [] := by
  refine ⟨h.unit, more, h.literals, ?_⟩
  rw [Literal.familyAll_of_plain h.plain]
  exact .nil

theorem Offers.refl (c : Context) : Offers c c [] :=
  (Adds.refl c).offers

/-- Functions that are offered in two parts. -/
theorem Offers.trans {a b c : Context} {rs qs : List Routine} (h : Offers a b rs)
    (k : Offers b c qs) :
    Offers a c (rs ++ qs) := by
  obtain ⟨hu, ls, hls, hrs⟩ := h
  obtain ⟨hu', ms, hms, hqs⟩ := k
  refine ⟨hu'.trans hu, ls ++ ms, ?_, ?_⟩
  · rw [hms, hls, List.append_assoc]
  · rw [Literal.familyAll_append]
    exact List.rel_append hrs hqs

/-- Offering depends on literals only. -/
theorem Offers.of_eq {a b c d : Context} {rs : List Routine} (h : Offers a b rs)
    (ha : c.literals = a.literals) (hb : d.literals = b.literals) (hc : c.unit = a.unit)
    (hd : d.unit = b.unit) : Offers c d rs := by
  obtain ⟨hu, ls, hls, hrs⟩ := h
  exact ⟨by rw [hd, hc, hu], ls, by rw [hb, ha, hls], hrs⟩

end Context

/-- What resolving a sentence gives: trees that stand for it, and functions that stand for those in
it. -/
def Sentence.Stands : Sentence → Prop
  | .statement s => ∀ ⦃c c' : Context⦄ ⦃t : Stmt⦄ ⦃names : List String⦄, c.scope.Tidy →
      c.scope.Names names → s.elaborate c = some (t, c') →
      c.Offers c' (s.routines c.unit) ∧ s.scope (c.scope.depth == 0) names = names ∧
        ∀ literals, c'.literals <+: literals →
          s.Stands c.unit literals (c.scope.depth == 0) names t
  | .declaration s => ∀ ⦃c c' : Context⦄ ⦃t : Stmt⦄ ⦃names : List String⦄, c.scope.Tidy →
      c.scope.Names names → s.elaborate c = some (t, c') →
      c.Offers c' (s.routines c.unit) ∧ c'.scope.Names (s.scope (c.scope.depth == 0) names) ∧
        ∀ literals, c'.literals <+: literals →
          s.Stands c.unit literals (c.scope.depth == 0) names t
  | .sequence ss => ∀ ⦃c c' : Context⦄ ⦃read b : Block⦄ ⦃names : List String⦄, c.scope.Tidy →
      c.scope.Names names → Clause.elaborateAll ss read c = some (b, c') →
      c.Offers c' (Clause.routinesAll c.unit ss) ∧ c'.scope.Tidy ∧
        c'.scope.Names (ss.foldl (fun ns s => s.scope (c.scope.depth == 0) ns) names) ∧
        ∃ ts, b.toList = read.toList ++ ts ∧ ∀ literals, c'.literals <+: literals →
          Clause.StandsAll c.unit literals (c.scope.depth == 0) names ss ts

namespace Sentence

open Context

/-- A statement that is one expression and some instructions. -/
theorem stands_term {s : Clause} {e : Term} {f : Expr → Stmt}
    (he : ∀ c, s.elaborate c = (e.elaborate true c).map fun (t, c') => (f t, c'))
    (hroutines : ∀ unit, s.routines unit = []) (hscope : ∀ top names, s.scope top names = names)
    (hstands : ∀ unit ls top names t, e.Stands ls names t → s.Stands unit ls top names (f t)) :
    Stands (.statement s) := by
  intro c c' t names ht hs h
  rw [he] at h
  obtain ⟨⟨x, d⟩, hx, h⟩ := Option.map_eq_some_iff.mp h
  obtain ⟨rfl, rfl⟩ := Prod.mk.inj h
  obtain ⟨more, hadds, -⟩ := e.elaborate_fits hs.readable hx
  rw [hroutines]
  exact ⟨hadds.offers, hscope _ _, fun ls hl => hstands _ _ _ _ _ (e.elaborate_stands hs hx hl)⟩

/-- A resolved return stands for one with the same value. -/
theorem stands_ret {value : Option Term} {line : Nat} : Stands (.statement (.ret value line)) := by
  intro c c' t names ht hs h
  cases Clause.derives_iff.mpr h with
  | ret hx =>
    obtain ⟨more, hadds, -⟩ := value?_fits hs.readable hx
    exact ⟨hadds.offers, rfl, fun ls hl => .ret (value?_stands hs hx hl)⟩

/-- A resolved conditional stands for one with the same parts. -/
theorem stands_ifThen {cond : Term} {line : Nat} {body : Clause} (ih : Stands (.statement body)) :
    Stands (.statement (.ifThen cond line body)) := by
  intro c c' t names ht hs h
  cases Clause.derives_iff.mpr h with
  | ifThen hx hb =>
    obtain ⟨more, hadds, -⟩ := cond.elaborate_fits hs.readable hx
    obtain ⟨hoffers, hscope, hstands⟩ := ih (by rw [hadds.scope]; exact ht) (hadds.names hs) hb
    rw [hadds.unit, hadds.scope] at *
    refine ⟨hadds.offers.trans hoffers, rfl, ?_⟩
    intro ls hl
    exact .ifThen (cond.elaborate_stands hs hx (hoffers.isPrefix.trans hl)) (hstands ls hl) hscope

theorem stands_loop {cond : Term} {line : Nat} {body : Clause} (ih : Stands (.statement body)) :
    Stands (.statement (.loop cond line body)) := by
  intro c c' t names ht hs h
  cases Clause.derives_iff.mpr h with
  | loop hx hb =>
    obtain ⟨more, hadds, -⟩ := cond.elaborate_fits hs.readable hx
    obtain ⟨hoffers, hscope, hstands⟩ := ih (by rw [hadds.scope]; exact ht) (hadds.names hs) hb
    rw [hadds.unit, hadds.scope] at *
    refine ⟨hadds.offers.trans hoffers, rfl, ?_⟩
    intro ls hl
    exact .loop (cond.elaborate_stands hs hx (hoffers.isPrefix.trans hl)) (hstands ls hl) hscope

/-- The second branch is resolved behind the first, in the same scope. -/
theorem stands_ifElse {cond : Term} {line : Nat} {body other : Clause}
    (hr : Resolves (.statement body)) (ih : Stands (.statement body))
    (ih' : Stands (.statement other)) :
    Stands (.statement (.ifElse cond line body other)) := by
  intro c c' t names ht hs h
  cases Clause.derives_iff.mpr h with
  | @ifElse _ _ _ _ _ d _ d' _ _ hx hb _ ho =>
    obtain ⟨more, hadds, -⟩ := cond.elaborate_fits hs.readable hx
    have ht' : d.scope.Tidy := by
      rw [hadds.scope]
      exact ht
    obtain ⟨-, -, hsame, -, -⟩ := hr ht' hb
    rw [hadds.scope] at hsame
    obtain ⟨hoffers, hscope, hstands⟩ := ih ht' (hadds.names hs) hb
    obtain ⟨hoffers', hscope', hstands'⟩ :=
      ih' (by rw [hsame]; exact ht) (by rw [hsame]; exact hs) ho
    have hunit : d'.unit = c.unit := hoffers.1.trans hadds.unit
    simp only [hunit, hsame] at hoffers' hscope' hstands'
    simp only [hadds.unit, hadds.scope] at hoffers hscope hstands
    refine ⟨(hadds.offers.trans hoffers).trans hoffers', rfl, ?_⟩
    intro ls hl
    have hl' : d'.literals <+: ls := hoffers'.isPrefix.trans hl
    exact .ifElse (cond.elaborate_stands hs hx (hoffers.isPrefix.trans hl')) (hstands ls hl') hscope
      (hstands' ls hl) hscope'

/-- A resolved block drops as many locals as are declared in it. -/
theorem stands_block {ss : List Clause} {line : Nat} (hr : Resolves (.sequence ss))
    (ih : Stands (.sequence ss)) : Stands (.statement (.block ss line)) := by
  intro c c' t names ht hs h
  cases Clause.derives_iff.mpr h with
  | @block _ _ b d hb =>
    have hs' : c.enter.scope.Names names := hs
    obtain ⟨hoffers, htidy, hnames, ts, hts, hstands⟩ := ih ht.enter hs' hb
    have hempty : Block.empty.Fits c.scope.locals.length c.enter.literals := trivial
    obtain ⟨-, -, new, -, hscope, hnew, -, -⟩ := hr ht.enter hempty (Nat.add_zero _) hb
    have hleave : d.scope.leave = (new.length, c.scope) := by
      rw [hscope]
      exact ht.leave hnew
    refine ⟨hoffers.of_eq rfl rfl rfl rfl, rfl, ?_⟩
    intro ls hl
    refine .block (by rw [hts]; exact hstands ls hl) ?_
    -- the locals of the block are those that are in sight at its end, less those before it
    have hbefore := congrArg List.length (hs.tidy ht)
    have hafter := congrArg List.length (hnames.tidy htidy)
    rw [hscope] at hafter
    simp only [List.length_map, List.length_append, List.length_singleton, Context.enter,
      Scope.enter, hleave] at hbefore hafter ⊢
    show (ss.foldl (fun ns s => s.scope (c.scope.depth + 1 == 0) ns) names).length = _
    omega

/-- A statement among declarations leaves the names as they are. -/
theorem stands_ofStatement {s : Clause} (hr : Resolves (.statement s))
    (ih : Stands (.statement s)) :
    Stands (.declaration s) := by
  intro c c' t names ht hs h
  obtain ⟨-, -, hsame, -, -⟩ := hr ht h
  obtain ⟨hoffers, hscope, hstands⟩ := ih ht hs h
  refine ⟨hoffers, ?_, hstands⟩
  rw [hsame, hscope]
  exact hs

/-- The variable of a declaration, and the locals after it. -/
theorem define?_stands {c d : Context} {x : String} {v : Variable} {ls : List Literal}
    (h : c.define? x = some (v, d)) (hl : d.literals <+: ls) :
    v.Declares ls (c.scope.depth == 0) x := by
  rcases define?_spec h with ⟨hdepth, ⟨more, -, hfits⟩, hlocals, hname⟩ | ⟨hdepth, rfl, -⟩
  · obtain ⟨y, place⟩ := v
    obtain rfl : y = x := hname
    cases place with
    | slot n => cases hlocals
    | global index => exact ⟨by simp [hdepth], getElem?_of_initial hl hfits⟩
  · show (c.scope.depth == 0) = false
    simp [hdepth]

/-- What a declaration leaves to the statements after it: the variable is in sight, unless it is a
global. -/
theorem define?_offers {c d : Context} {x : String} {v : Variable} {names : List String}
    (h : c.define? x = some (v, d)) (hglobal : c.scope.depth = 0 → c.scope.Names names)
    (hlocal : c.scope.depth ≠ 0 → c.scope.settle.Names (x :: names)) :
    c.Offers d [] ∧ d.scope.Names (if c.scope.depth == 0 then names else x :: names) := by
  rcases define?_spec h with ⟨hzero, ⟨more, hadds, -⟩, -, -⟩ | ⟨hne, -, rfl⟩
  · refine ⟨hadds.offers, ?_⟩
    rw [hadds.scope, if_pos (by simp [hzero])]
    exact hglobal hzero
  · refine ⟨(Offers.refl c).of_eq rfl rfl rfl rfl, ?_⟩
    rw [if_neg (by simp [hne])]
    exact hlocal hne

/-- A declaration at the top level names a global; elsewhere it names a local that comes in front of
the others. -/
theorem stands_declare {x : String} {nameLine line : Nat} {init : Option Term} :
    Stands (.declaration (.declare x nameLine init line)) := by
  intro c c' t names ht hs h
  cases Clause.derives_iff.mpr h with
  | @declare _ _ _ _ d _ d' _ _ hd hx hv =>
    -- while the first value is resolved, a local waits on top of the others
    have hd' : d.scope.Names names ∧ d.literals = c.literals ∧ d.unit = c.unit ∧
        d.scope.depth = c.scope.depth := by
      rcases declare?_spec hd with ⟨-, rfl⟩ | ⟨-, rfl⟩
      · exact ⟨hs, rfl, rfl, rfl⟩
      · obtain ⟨pending, named, hlocals, hp, hnamed⟩ := hs
        refine ⟨⟨⟨x, none⟩ :: pending, named, by simp [hlocals], ?_, hnamed⟩, rfl, rfl, rfl⟩
        intro l hl
        rcases List.mem_cons.mp hl with rfl | hl
        · rfl
        · exact hp l hl
    obtain ⟨hnames, hlits, hunit, hdepth⟩ := hd'
    obtain ⟨more, hadds, -⟩ := value?_fits hnames.readable hx
    have hoffers : c.Offers d' [] := hadds.offers.of_eq hlits.symm rfl hunit.symm rfl
    have hdefine : d'.Offers c' [] ∧ c'.scope.Names
      (if d'.scope.depth == 0 then names else x :: names) := by
      refine define?_offers hv (fun _ => hadds.names hnames) fun hne => ?_
      rw [hadds.scope] at hne ⊢
      rcases declare?_spec hd with ⟨hzero, rfl⟩ | ⟨-, rfl⟩
      · exact absurd hzero hne
      · exact hs.append ht [⟨x, some c.scope.depth⟩] _
    rw [hadds.scope, hdepth] at hdefine
    refine ⟨hoffers.trans hdefine.1, hdefine.2, ?_⟩
    intro ls hl
    refine .declare (value?_stands hnames hx (hdefine.1.isPrefix.trans hl)) ?_
    have hdeclares := define?_stands hv hl
    rw [hadds.scope, hdepth] at hdeclares
    exact hdeclares

/-- A function that is closed stands for its declaration. -/
theorem offers_closeFunction {inner outer d : Context} {x : String} {ps : List String}
    {ss : List Clause} {b : Block} {site index line : Nat}
    (hinner : Context.Offers outer.openFunction inner
      (Clause.routinesAll outer.unit ss))
    (hbody : Clause.StandsAll outer.unit inner.literals false ps.reverse ss b.toList)
    (h : inner.closeFunction? outer
      (.ofBody ⟨inner.unit, site⟩ (some x) ps.length inner.literals b line) =
      some (index, d)) :
    outer.Offers d (⟨⟨outer.unit, site⟩, some x, ps, ss⟩ :: Clause.routinesAll outer.unit ss) ∧
      d.scope = outer.scope ∧ d.literals[index]? = some
      (.function (.ofBody ⟨outer.unit, site⟩ (some x)
        ps.length inner.literals b line)) := by
  obtain ⟨hunit, more, hmore, hroutines⟩ := hinner
  have hunit' : inner.unit = outer.unit := hunit
  have hmore' : inner.literals = more := by simpa [openFunction] using hmore
  rw [hunit'] at h
  obtain ⟨hls, hi, hsc, hu, -⟩ := addLiteral?_spec h
  refine ⟨⟨hu.trans hunit', _, hls, ?_⟩, hsc, hi⟩
  rw [Literal.familyAll, Literal.familyAll, List.append_nil, Literal.family, Function.family_eq]
  refine .cons ⟨b, line, rfl, hbody⟩ ?_
  rw [Function.ofBody, hmore']
  exact hroutines

/-- A function has its name already when its body is resolved; the names in the body are the
parameters. -/
theorem stands_function {site : Nat} {x : String} {ps : List String} {ss : List Clause} {line : Nat}
    (ih : Stands (.sequence ss)) : Stands (.declaration (.function site x ps ss line)) := by
  intro c c' t names ht hs h
  cases Clause.derives_iff.mpr h with
  | @function _ _ _ _ outer _ b inner _ d _ _ ho _ hopened hb hclose hv =>
    have houter : outer.literals = c.literals ∧ outer.unit = c.unit ∧
      outer.scope.depth = c.scope.depth := by
      rcases declareFunction?_spec ho with ⟨-, rfl⟩ | ⟨-, rfl⟩
      · exact ⟨rfl, rfl, rfl⟩
      · exact ⟨rfl, rfl, rfl⟩
    obtain ⟨hlits, hunit, hdepth⟩ := houter
    -- the body, in a scope of its own
    obtain ⟨new, rfl, hnames, hnew⟩ := declareAll?_spec
      (by simp [openFunction, Scope.enter]) hopened
    have htidy : Scope.Tidy ⟨new ++ Scope.start.locals, 1⟩ := Scope.tidy_start.enter.append hnew
    have hparams : Scope.Names ⟨new ++ Scope.start.locals, 1⟩ ps.reverse :=
      ⟨[], new, rfl, by simp, hnames⟩
    obtain ⟨hoffers, -, -, ts, hts, hstands⟩ := ih htidy hparams hb
    have hbody : Clause.StandsAll outer.unit inner.literals false ps.reverse ss b.toList := by
      rw [hts]
      exact hstands _ List.prefix_rfl
    have hinner : outer.openFunction.Offers inner (Clause.routinesAll outer.unit ss) :=
      hoffers.of_eq rfl rfl rfl rfl
    obtain ⟨hclosed, hscope, hindex⟩ := offers_closeFunction hinner hbody hclose
    -- the name of the function is a global or the next local
    have hdefine : d.Offers c' [] ∧ c'.scope.Names
      (if d.scope.depth == 0 then names else x :: names) := by
      refine define?_offers hv (fun hzero => ?_) fun hne => ?_
      · rw [hscope] at hzero ⊢
        rcases declareFunction?_spec ho with ⟨-, rfl⟩ | ⟨hne, rfl⟩
        · exact hs
        · exact absurd hzero hne
      · rw [hscope] at hne ⊢
        rcases declareFunction?_spec ho with ⟨hzero, rfl⟩ | ⟨-, rfl⟩
        · exact absurd hzero hne
        · exact hs.append ht [⟨x, some c.scope.depth⟩] _
    rw [hscope, hdepth] at hdefine
    have hall := (hclosed.trans hdefine.1).of_eq hlits.symm rfl hunit.symm rfl
    rw [List.append_nil, hunit] at hall
    refine ⟨hall, hdefine.2, ?_⟩
    intro ls hl
    have hdeclares := define?_stands hv hl
    rw [hscope, hdepth] at hdeclares
    have hindex' := getElem?_of_initial (hdefine.1.isPrefix.trans hl) hindex
    rw [hunit] at hindex' hbody
    exact .function hindex' hbody hdeclares

theorem stands_none : Stands (.sequence []) := by
  intro c c' read b names ht hs h
  obtain ⟨rfl, rfl⟩ := Prod.mk.inj (Option.some.inj h)
  exact ⟨.refl c, ht, hs, [], by simp, fun _ _ => .nil⟩

/-- The names after a declaration are those before the next one. -/
theorem stands_more {s : Clause} {ss : List Clause} (hr : Resolves (.declaration s))
    (ih : Stands (.declaration s)) (ihs : Stands (.sequence ss)) :
    Stands (.sequence (s :: ss)) := by
  intro c c' read b names ht hs h
  cases Clause.derivesAll_iff.mpr h with
  | @cons _ _ _ t d _ hd hts =>
    obtain ⟨-, new, -, hscope, -, hnew, -⟩ := hr ht hd
    obtain ⟨hoffers, hnames, hstands⟩ := ih ht hs hd
    have ht' : d.scope.Tidy := by
      rw [hscope]
      exact ht.append hnew
    have hdepth : d.scope.depth = c.scope.depth := by rw [hscope]
    obtain ⟨hoffers', htidy, hnames', ts, hts', hstands'⟩ := ihs ht' hnames hts
    simp only [hdepth, hoffers.1] at hoffers' hnames' hstands'
    refine ⟨hoffers.trans hoffers', htidy, hnames', t :: ts, ?_, ?_⟩
    · rw [hts', Block.toList, List.append_assoc]
      rfl
    · intro ls hl
      exact .cons (hstands ls (hoffers'.isPrefix.trans hl)) (hstands' ls hl)

end Sentence

/-- Resolving a sentence that the grammar spells gives trees that stand for it. -/
theorem Spells.stands {ts : List Token} {σ : Sentence} (h : Spells ts σ) : σ.Stands := by
  induction h with
  | @expr semi _ e =>
    refine Sentence.stands_term (e := e) (f := (.expr · semi.line)) (fun c => ?_) (fun _ => rfl)
      (fun _ _ => rfl) (fun _ _ _ _ _ ht => .expr ht)
    rw [Clause.elaborate, Option.map_eq_bind]
    rfl
  | @print _ semi _ e =>
    refine Sentence.stands_term (e := e) (f := (.print · semi.line)) (fun c => ?_) (fun _ => rfl)
      (fun _ _ => rfl) (fun _ _ _ _ _ ht => .print ht)
    rw [Clause.elaborate, Option.map_eq_bind]
    rfl
  | ifThen _ _ _ _ _ ih => exact Sentence.stands_ifThen ih
  | ifElse _ _ _ _ hbody _ _ _ ih ih' => exact Sentence.stands_ifElse hbody.resolves ih ih'
  | loop _ _ _ _ _ ih => exact Sentence.stands_loop ih
  | ret | retWith => exact Sentence.stands_ret
  | yield =>
    intro c c' t names ht hs h
    rw [Clause.elaborate] at h
    obtain ⟨rfl, rfl⟩ := Prod.mk.inj (Option.some.inj h)
    exact ⟨.refl c, rfl, fun _ _ => .yield⟩
  | stop =>
    intro c c' t names ht hs h
    rw [Clause.elaborate] at h
    obtain ⟨rfl, rfl⟩ := Prod.mk.inj (Option.some.inj h)
    exact ⟨.refl c, rfl, fun _ _ => .stop⟩
  | block _ hbody _ ih => exact Sentence.stands_block hbody.resolves ih
  | ofStatement hs ih => exact Sentence.stands_ofStatement hs.resolves ih
  | declare | declareWith => exact Sentence.stands_declare
  | function _ _ _ _ _ _ _ _ ih => exact Sentence.stands_function ih
  | functionWith _ _ _ _ _ _ _ _ _ ih => exact Sentence.stands_function ih
  | none => exact Sentence.stands_none
  | more hs _ ih ihs => exact Sentence.stands_more hs.resolves ih ihs

/-! ## Programs -/

/-- The functions of a program stand for those of its script, in order. -/
theorem compiled_of_program? {s : Script} {ts : List Token} {unit : Nat} {globals : List String}
    {p : Program} (hs : s.Spelled ts) (h : s.program? unit globals = some p) :
    List.Forall₂ Routine.Compiled (s.main unit :: Clause.routinesAll unit s.body) p.main.family ∧
      p.strings = s.texts unit globals := by
  obtain ⟨us, t, -, -, -, hspells⟩ := hs
  obtain ⟨body, c, hb, rfl⟩ := Script.program?_eq_some_iff.mp h
  have hnames : (Context.start unit globals).scope.Names [] := ⟨[], [], rfl, by simp, rfl⟩
  obtain ⟨⟨-, more, hmore, hroutines⟩, -, -, stmts, hstmts, hstands⟩ :=
    hspells.stands Scope.tidy_start hnames hb
  have hmore' : c.literals = more := hmore
  refine ⟨?_, by rw [Script.texts, hb]⟩
  rw [Function.family_eq]
  refine .cons ⟨body, s.lastLine, rfl, ?_⟩ ?_
  · rw [hstmts]
    exact hstands c.literals List.prefix_rfl
  · show List.Forall₂ _ _ (Literal.familyAll c.literals)
    rw [hmore']
    exact hroutines

end EntityScript
