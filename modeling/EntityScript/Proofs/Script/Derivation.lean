/-
# Rules for resolved trees

The resolved tree of an expression, a statement or a declaration is made from those of its parts,
and what is known goes from one part to the next.  Each form has one rule for this.  A name has two,
for locals and globals; so have numbers, and members, the second one for a name at the head of an
expression that could be an assignment.

The rules are those of `Term.elaborate` and `Clause.elaborate`, neither more nor less
(`Term.derives_iff`, `Clause.derives_iff`).  What holds of resolved trees is shown rule by rule.
-/
import EntityScript.Proofs.Script.Elaborate

namespace EntityScript

/-! ## Names -/

/-- What a name stands for, and what is known after it. -/
inductive Variable.Derives (c : Context) (x : String) : Variable × Context → Prop
  | slot {n} (hx : x ≠ "") (hfind : c.scope.find? x = some (n, true)) :
    Variable.Derives c x (⟨x, .slot n⟩, c)
  | global {index c'} (hx : x ≠ "") (hfind : c.scope.find? x = none) (hknown : x ∈ c.globals)
      (hl : c.nameLiteral? x = some (index, c')) :
    Variable.Derives c x (⟨x, .global index⟩, c')

/-- Names are resolved by the rules. -/
theorem Variable.derives_iff {c : Context} {x : String} {r : Variable × Context} :
    Variable.Derives c x r ↔ c.resolve? x = some r := by
  refine ⟨fun h => ?_, fun h => ?_⟩
  · cases h with
    | slot hx hfind => rw [Context.resolve?, if_neg hx, hfind]
    | global hx hfind hknown hl =>
      rw [Context.resolve?, if_neg hx, hfind]
      simp [hknown, hl]
  unfold Context.resolve? at h
  split at h
  · cases h
  next hx =>
  split at h
  · next hfind =>
    obtain rfl := Option.some.inj h
    exact .slot hx hfind
  · cases h
  next hfind =>
  split at h
  · next hknown =>
    obtain ⟨⟨index, d⟩, hl, rfl⟩ := Option.map_eq_some_iff.mp h
    exact .global hx hfind (List.contains_iff_mem.mp hknown) hl
  · cases h

/-! ## Expressions -/

/-- The resolved tree of an expression, and what is known after it. -/
inductive Term.Derives (c : Context) : (head : Bool) → Term → Expr × Context → Prop
  | nil {head line} : Term.Derives c head (.nil line) (.nil line, c)
  | bool {head b line} : Term.Derives c head (.bool b line) (.bool b line, c)
  | int {head text line n index c'} (hn : numberLiteral? text = some (.int n))
      (hl : c.addLiteral? (.int n) = some (index, c')) :
    Term.Derives c head (.number text line) (.int n index line, c')
  | float {head text line bits index c'} (hn : numberLiteral? text = some (.float bits))
      (hl : c.addLiteral? (.float bits) = some (index, c')) :
    Term.Derives c head (.number text line) (.float bits index line, c')
  | string {head text line index c'}
      (hl : c.addLiteral? (.string (unquote text)) = some (index, c')) :
    Term.Derives c head (.string text line) (.string (unquote text) index line, c')
  | name {head x line v c'} (hv : c.resolve? x = some (v, c')) :
    Term.Derives c head (.name x line) (.get v line, c')
  | assign {head x value v d t c'} (hv : c.resolve? x = some (v, d))
      (ht : value.elaborate true d = some (t, c')) :
    Term.Derives c head (.assign x value) (.set v t value.lastLine, c')
  | assignMember {head x m value v d mem t c'} (hv : c.resolve? x = some (v, d))
      (hm : Member.ofName? m = some mem) (ht : value.elaborate true d = some (t, c')) :
    Term.Derives c head (.assignMember x m value) (.setMember v mem t value.lastLine, c')
  | group {head e line t c'} (ht : e.elaborate true c = some (t, c')) :
    Term.Derives c head (.group e line) (t, c')
  | memberOfName {x l m line v mem c'} (hv : c.resolve? x = some (v, c'))
      (hm : Member.ofName? m = some mem) :
    Term.Derives c true (.member (.name x l) m line) (.member (.get v line) mem line, c')
  | member {head e m line t mem c'} (hname : head = true → e.isName = false)
      (ht : e.elaborate head c = some (t, c')) (hm : Member.ofName? m = some mem) :
    Term.Derives c head (.member e m line) (.member t mem line, c')
  | unary {head op e t c'} (ht : e.elaborate false c = some (t, c')) :
    Term.Derives c head (.unary op e) (.unary op t e.lastLine, c')
  | binary {head op lhs rhs l d r c'} (hl : lhs.elaborate head c = some (l, d))
      (hr : rhs.elaborate false d = some (r, c')) :
    Term.Derives c head (.binary op lhs rhs) (.binary op l r rhs.lastLine, c')
  | call {head callee arguments line f d ts c'} (hf : callee.elaborate head c = some (f, d))
      (hts : Term.elaborateAll arguments d = some (ts, c'))
      (hmax : arguments.length ≤ maxArguments) :
    Term.Derives c head (.call callee arguments line) (.call f ts line, c')

/-- The resolved trees of arguments, from left to right. -/
inductive Term.DerivesAll (c : Context) : List Term → List Expr × Context → Prop
  | nil : Term.DerivesAll c [] ([], c)
  | cons {e es t d ts c'} (ht : e.elaborate true c = some (t, d))
      (hts : Term.elaborateAll es d = some (ts, c')) :
    Term.DerivesAll c (e :: es) (t :: ts, c')

section

variable {c : Context} {head : Bool}

/-- A tree that the rules give is the one that is computed. -/
theorem Term.Derives.elaborate_eq {e : Term} {r : Expr × Context} (h : e.Derives c head r) :
    e.elaborate head c = some r := by
  cases h with
  | nil | bool => rfl
  | int hn hl | float hn hl => simp [Term.elaborate, Context.number?, hn, hl]
  | group ht => rw [Term.elaborate, ht]
  | member hname ht hm => simp [Term.elaborate_member _ _ _ hname, ht, hm]
  | call hf hts hmax => simp [Term.elaborate, hf, hts, hmax]
  | string | name | assign | assignMember | memberOfName | unary | binary =>
    simp [Term.elaborate, *]

/-- A number has a rule for integers and one for doubles. -/
theorem Term.derives_number {text : String} {line : Nat} {r : Expr × Context}
    (h : c.number? text line = some r) :
    Term.Derives c head (.number text line) r := by
  unfold Context.number? at h
  split at h
  · next n hn =>
    obtain ⟨⟨index, d⟩, hl, rfl⟩ := Option.map_eq_some_iff.mp h
    exact .int hn hl
  · next bits hn =>
    obtain ⟨⟨index, d⟩, hl, rfl⟩ := Option.map_eq_some_iff.mp h
    exact .float hn hl
  · cases h

/-- A member of a name has a rule of its own at the head of an expression. -/
theorem Term.derives_member {e : Term} {m : String} {line : Nat} {r : Expr × Context}
    (h : (Term.member e m line).elaborate head c = some r) :
    Term.Derives c head (.member e m line) r := by
  by_cases hhead : head = true ∧ e.isName = true
  · obtain ⟨rfl, hname⟩ := hhead
    cases e with
    | name x l =>
      simp only [Term.elaborate, Option.bind_eq_bind, Option.bind_eq_some_iff] at h
      obtain ⟨⟨v, d⟩, hv, mem, hm, h⟩ := h
      obtain rfl := Option.some.inj h
      exact .memberOfName hv hm
    | nil | bool | number | string | assign | assignMember | group | member | unary | binary
    | call =>
      cases hname
  · have hname : head = true → e.isName = false := by simpa using hhead
    rw [Term.elaborate_member _ _ _ hname] at h
    simp only [Option.bind_eq_bind, Option.bind_eq_some_iff] at h
    obtain ⟨⟨u, d⟩, hu, mem, hm, h⟩ := h
    obtain rfl := Option.some.inj h
    exact .member hname hu hm

/-- Expressions are resolved by the rules. -/
theorem Term.derives_iff {e : Term} {r : Expr × Context} :
    e.Derives c head r ↔ e.elaborate head c = some r := by
  refine ⟨Term.Derives.elaborate_eq, fun h => ?_⟩
  cases e with
  | nil | bool =>
    obtain rfl := Option.some.inj h
    constructor
  | number =>
    rw [Term.elaborate] at h
    exact Term.derives_number h
  | string =>
    simp only [Term.elaborate, Option.bind_eq_bind, Option.bind_eq_some_iff] at h
    obtain ⟨⟨i, d⟩, hi, h⟩ := h
    obtain rfl := Option.some.inj h
    exact .string hi
  | name =>
    simp only [Term.elaborate, Option.bind_eq_bind, Option.bind_eq_some_iff] at h
    obtain ⟨⟨v, d⟩, hv, h⟩ := h
    obtain rfl := Option.some.inj h
    exact .name hv
  | assign =>
    simp only [Term.elaborate, Option.bind_eq_bind, Option.bind_eq_some_iff] at h
    obtain ⟨⟨v, d⟩, hv, ⟨u, d'⟩, hu, h⟩ := h
    obtain rfl := Option.some.inj h
    exact .assign hv hu
  | assignMember =>
    simp only [Term.elaborate, Option.bind_eq_bind, Option.bind_eq_some_iff] at h
    obtain ⟨⟨v, d⟩, hv, mem, hm, ⟨u, d'⟩, hu, h⟩ := h
    obtain rfl := Option.some.inj h
    exact .assignMember hv hm hu
  | group =>
    rw [Term.elaborate] at h
    exact .group h
  | member => exact Term.derives_member h
  | unary =>
    simp only [Term.elaborate, Option.bind_eq_bind, Option.bind_eq_some_iff] at h
    obtain ⟨⟨u, d⟩, hu, h⟩ := h
    obtain rfl := Option.some.inj h
    exact .unary hu
  | binary =>
    simp only [Term.elaborate, Option.bind_eq_bind, Option.bind_eq_some_iff] at h
    obtain ⟨⟨l, d⟩, hl, ⟨r, d'⟩, hr, h⟩ := h
    obtain rfl := Option.some.inj h
    exact .binary hl hr
  | call =>
    simp only [Term.elaborate, Option.bind_eq_bind, Option.bind_eq_some_iff,
      Option.guard_eq_some'] at h
    obtain ⟨⟨f, d⟩, hf, ⟨ts, d'⟩, hts, -, hmax, h⟩ := h
    obtain rfl := Option.some.inj h
    exact .call hf hts hmax

/-- The rules give the trees of several expressions that are computed, and no others. -/
theorem Term.derivesAll_iff {es : List Term} {r : List Expr × Context} :
    Term.DerivesAll c es r ↔ Term.elaborateAll es c = some r := by
  refine ⟨fun h => ?_, fun h => ?_⟩
  · cases h with
    | nil => rfl
    | cons ht hts => simp [Term.elaborateAll, ht, hts]
  cases es with
  | nil =>
    obtain rfl := Option.some.inj h
    exact .nil
  | cons =>
    simp only [Term.elaborateAll, Option.bind_eq_bind, Option.bind_eq_some_iff] at h
    obtain ⟨⟨t, d⟩, ht, ⟨ts, d'⟩, hts, h⟩ := h
    obtain rfl := Option.some.inj h
    exact .cons ht hts

end

/-! ## Statements and declarations -/

/-- The resolved tree of a statement or a declaration, and what is known after it. -/
inductive Clause.Derives (c : Context) : Clause → Stmt × Context → Prop
  | expr {e line t c'} (ht : e.elaborate true c = some (t, c')) :
    Clause.Derives c (.expr e line) (.expr t line, c')
  | print {e line t c'} (ht : e.elaborate true c = some (t, c')) :
    Clause.Derives c (.print e line) (.print t line, c')
  | declare {x nameLine init line d t d' v c'} (hd : c.declare? x = some d)
      (ht : d.value? nameLine init = some (t, d')) (hv : d'.define? x = some (v, c')) :
    Clause.Derives c (.declare x nameLine init line) (.declare v t line, c')
  | function {x parameters body line outer opened b inner index d v c'}
      (houter : c.declareFunction? x = some outer) (hmax : parameters.length ≤ maxArguments)
      (hopened : outer.openFunction.declareAll? parameters = some opened)
      (hb : Clause.elaborateAll body .empty opened = some (b, inner))
      (hclose : inner.closeFunction? outer
        (.ofBody ⟨inner.unit, inner.serial⟩ (some x) parameters.length inner.literals b line) =
          some (index, d))
      (hv : d.define? x = some (v, c')) :
    Clause.Derives c (.function inner.serial x parameters body line)
      (.function v parameters b line index line, c')
  | ifThen {cond line body t d b c'} (ht : cond.elaborate true c = some (t, d))
      (hb : body.elaborate d = some (b, c')) (hroom : b.postorder.length + 2 ≤ maxOffset) :
    Clause.Derives c (.ifThen cond line body) (.ifThen t b line body.lastLine, c')
  | ifElse {cond line body other t d b d' o c'} (ht : cond.elaborate true c = some (t, d))
      (hb : body.elaborate d = some (b, d')) (hroom : b.postorder.length + 2 ≤ maxOffset)
      (ho : other.elaborate d' = some (o, c')) (hroom' : o.postorder.length + 1 ≤ maxOffset) :
    Clause.Derives c (.ifElse cond line body other) (.ifElse t b o line body.lastLine, c')
  | loop {cond line body t d b c'} (ht : cond.elaborate true c = some (t, d))
      (hb : body.elaborate d = some (b, c'))
      (hroom : t.postorder.length + b.postorder.length + 3 ≤ maxOffset) :
    Clause.Derives c (.loop cond line body) (.loop t b line body.lastLine, c')
  | ret {value line t c'} (ht : c.value? line value = some (t, c')) :
    Clause.Derives c (.ret value line) (.ret t line, c')
  | yield {line} : Clause.Derives c (.yield line) (.yield line, c)
  | stop {line} : Clause.Derives c (.stop line) (.stop line, c)
  | block {body line b d} (hb : Clause.elaborateAll body .empty c.enter = some (b, d)) :
    Clause.Derives c (.block body line) (.block b d.scope.leave.1 line, d.leave)

/-- The resolved trees of statements and declarations in order, after those in `read`. -/
inductive Clause.DerivesAll (c : Context) : List Clause → (read : Block) → Block × Context → Prop
  | nil {read} : Clause.DerivesAll c [] read (read, c)
  | cons {s ss read t d r} (ht : s.elaborate c = some (t, d))
      (hts : Clause.elaborateAll ss (read.append t) d = some r) :
    Clause.DerivesAll c (s :: ss) read r

section

variable {c : Context}

/-- The tree that the rules give for a statement is the one that is computed. -/
theorem Clause.Derives.elaborate_eq {s : Clause} {r : Stmt × Context} (h : s.Derives c r) :
    s.elaborate c = some r := by
  cases h with
  | yield | stop => rfl
  | expr ht | print ht | ret ht | block ht => simp [Clause.elaborate, ht]
  | declare hd ht hv => simp [Clause.elaborate, hd, ht, hv]
  | function houter hmax hopened hb hclose hv =>
    simp only [Clause.elaborate, Option.bind_eq_bind, guard, Option.pure_def, houter, if_pos hmax,
      hopened, hb, ↓reduceIte, hclose, hv, Option.bind_some]
  | ifThen ht hb hroom | loop ht hb hroom =>
    simp only [Clause.elaborate, Option.bind_eq_bind, guard, Option.pure_def, ht, hb, if_pos hroom,
      Option.bind_some]
  | ifElse ht hb hroom ho hroom' =>
    simp only [Clause.elaborate, Option.bind_eq_bind, guard, Option.pure_def, ht, hb,
      if_pos hroom, ho, if_pos hroom', Option.bind_some]

/-- Statements and declarations are resolved by the rules. -/
theorem Clause.derives_iff {s : Clause} {r : Stmt × Context} :
    s.Derives c r ↔ s.elaborate c = some r := by
  refine ⟨Clause.Derives.elaborate_eq, fun h => ?_⟩
  cases s with
  | expr =>
    simp only [Clause.elaborate, Option.bind_eq_bind, Option.bind_eq_some_iff] at h
    obtain ⟨⟨t, d⟩, ht, h⟩ := h
    obtain rfl := Option.some.inj h
    exact .expr ht
  | print =>
    simp only [Clause.elaborate, Option.bind_eq_bind, Option.bind_eq_some_iff] at h
    obtain ⟨⟨t, d⟩, ht, h⟩ := h
    obtain rfl := Option.some.inj h
    exact .print ht
  | declare =>
    simp only [Clause.elaborate, Option.bind_eq_bind, Option.bind_eq_some_iff] at h
    obtain ⟨d, hd, ⟨t, d'⟩, ht, ⟨v, d''⟩, hv, h⟩ := h
    obtain rfl := Option.some.inj h
    exact .declare hd ht hv
  | function =>
    simp only [Clause.elaborate, Option.bind_eq_bind, Option.bind_eq_some_iff,
      Option.guard_eq_some'] at h
    obtain ⟨outer, houter, -, hmax, opened, hopened, ⟨b, inner⟩, hb, -, rfl, ⟨index, d⟩, hclose,
      ⟨v, d'⟩, hv, h⟩ := h
    obtain rfl := Option.some.inj h
    exact .function houter hmax hopened hb hclose hv
  | ifThen =>
    simp only [Clause.elaborate, Option.bind_eq_bind, Option.bind_eq_some_iff,
      Option.guard_eq_some'] at h
    obtain ⟨⟨t, d⟩, ht, ⟨b, d'⟩, hb, -, hroom, h⟩ := h
    obtain rfl := Option.some.inj h
    exact .ifThen ht hb hroom
  | ifElse =>
    simp only [Clause.elaborate, Option.bind_eq_bind, Option.bind_eq_some_iff,
      Option.guard_eq_some'] at h
    obtain ⟨⟨t, d⟩, ht, ⟨b, d'⟩, hb, -, hroom, ⟨o, d''⟩, ho, -, hroom', h⟩ := h
    obtain rfl := Option.some.inj h
    exact .ifElse ht hb hroom ho hroom'
  | loop =>
    simp only [Clause.elaborate, Option.bind_eq_bind, Option.bind_eq_some_iff,
      Option.guard_eq_some'] at h
    obtain ⟨⟨t, d⟩, ht, ⟨b, d'⟩, hb, -, hroom, h⟩ := h
    obtain rfl := Option.some.inj h
    exact .loop ht hb hroom
  | ret =>
    simp only [Clause.elaborate, Option.bind_eq_bind, Option.bind_eq_some_iff] at h
    obtain ⟨⟨t, d⟩, ht, h⟩ := h
    obtain rfl := Option.some.inj h
    exact .ret ht
  | yield | stop =>
    rw [Clause.elaborate] at h
    obtain rfl := Option.some.inj h
    constructor
  | block =>
    simp only [Clause.elaborate, Option.bind_eq_bind, Option.bind_eq_some_iff] at h
    obtain ⟨⟨b, d⟩, hb, h⟩ := h
    obtain rfl := Option.some.inj h
    exact .block hb

/-- The rules give the trees of several statements that are computed, and no others. -/
theorem Clause.derivesAll_iff {ss : List Clause} {read : Block} {r : Block × Context} :
    Clause.DerivesAll c ss read r ↔ Clause.elaborateAll ss read c = some r := by
  refine ⟨fun h => ?_, fun h => ?_⟩
  · cases h with
    | nil => rfl
    | cons ht hts => simp [Clause.elaborateAll, ht, hts]
  cases ss with
  | nil =>
    obtain rfl := Option.some.inj h
    exact .nil
  | cons =>
    simp only [Clause.elaborateAll, Option.bind_eq_bind, Option.bind_eq_some_iff] at h
    obtain ⟨⟨t, d⟩, ht, hts⟩ := h
    exact .cons ht hts

end

/-- The program of a script is made of its resolved statements. -/
theorem Script.program?_eq_some_iff {s : Script} {unit : Nat} {globals : List String}
    {p : Program} :
    s.program? unit globals = some p ↔
      ∃ b c, Clause.elaborateAll s.body .empty (.start unit globals) = some (b, c) ∧
        p = ⟨.ofBody ⟨unit, 0⟩ none 0 c.literals b s.lastLine, c.strings.reverse⟩ := by
  simp only [Script.program?, Option.bind_eq_bind, Option.bind_eq_some_iff, Prod.exists]
  refine exists_congr fun b => exists_congr fun c => and_congr_right fun _ => ?_
  exact ⟨fun h => (Option.some.inj h).symm, fun h => congrArg some h.symm⟩

end EntityScript
