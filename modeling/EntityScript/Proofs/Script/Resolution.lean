/-
# Resolved expressions fit

The tree that the static rules give an expression fits the function it belongs to, if it is known
which slots hold a local that has its value (`Scope.Readable`).  Between statements every local in
sight has its value and belongs to an open block (`Scope.Tidy`), so leaving a block drops exactly
the locals that were declared in it.
-/
import EntityScript.Proofs.Script.Derivation
import EntityScript.Proofs.Tree.Family
import Mathlib.Data.List.Pairwise

namespace EntityScript

/-! ## Scopes -/

namespace Scope

/-- The slots below `n` have their values, and the first of them has no name. -/
structure Readable (s : Scope) (n : Nat) : Prop where
  settled : ∃ pending old, s.locals = pending ++ old ∧ old.length = n ∧
    ∀ l ∈ pending, l.depth = none
  bottom : ∃ ls, s.locals = ls ++ [⟨"", some 0⟩]

/-- Every local has its value and belongs to an open block, and the first of them has no name. -/
structure Tidy (s : Scope) : Prop where
  settled : ∀ l ∈ s.locals, ∃ d, l.depth = some d ∧ d ≤ s.depth
  bottom : ∃ ls, s.locals = ls ++ [⟨"", some 0⟩]

theorem Tidy.readable {s : Scope} (h : s.Tidy) : s.Readable s.locals.length :=
  ⟨⟨[], s.locals, rfl, rfl, by simp⟩, h.bottom⟩

theorem tidy_start : Scope.start.Tidy :=
  ⟨by simp [start], [], rfl⟩

theorem Tidy.enter {s : Scope} (h : s.Tidy) : s.enter.Tidy := by
  refine ⟨fun l hl => ?_, h.bottom⟩
  obtain ⟨d, hd, hle⟩ := h.settled l hl
  exact ⟨d, hd, Nat.le_succ_of_le hle⟩

/-- Further locals of the innermost block keep a scope tidy. -/
theorem Tidy.append {s : Scope} (h : s.Tidy) {new : List Local}
    (hnew : ∀ l ∈ new, l.depth = some s.depth) : Tidy ⟨new ++ s.locals, s.depth⟩ := by
  refine ⟨fun l hl => ?_, ?_⟩
  · rcases List.mem_append.mp hl with hl | hl
    · exact ⟨s.depth, hnew l hl, Nat.le_refl _⟩
    · exact h.settled l hl
  · obtain ⟨ls, hls⟩ := h.bottom
    exact ⟨new ++ ls, by simp only [hls, List.append_assoc]⟩

/-- A name that can be read is that of a local above slot zero. -/
theorem Readable.find? {s : Scope} {n slot : Nat} {x : String} (h : s.Readable n) (hx : x ≠ "")
    (hf : s.find? x = some (slot, true)) : 1 ≤ slot ∧ slot < n := by
  obtain ⟨⟨pending, old, hs, hn, hp⟩, ls, hb⟩ := h
  unfold Scope.find? at hf
  split at hf
  · simp at hf
  · next l rest hdrop =>
    simp only [Option.some.injEq, Prod.mk.injEq] at hf
    obtain ⟨rfl, hsome⟩ := hf
    -- the local that is found, with all that lie below it
    have hsuffix : l :: rest <:+ s.locals := hdrop ▸ List.dropWhile_suffix _
    have hname : l.name = x := by
      have hne : s.locals.dropWhile (·.name != x) ≠ [] := by simp [hdrop]
      have := List.head_dropWhile_not (fun m : Local => m.name != x) hne
      simp only [hdrop, List.head_cons] at this
      simpa using this
    constructor
    · -- it is not the lowest one, which has no name
      cases rest with
      | nil =>
        obtain ⟨before, hbefore⟩ := hsuffix
        rw [hb] at hbefore
        obtain ⟨-, hl⟩ := List.append_inj' hbefore rfl
        obtain rfl : l = ⟨"", some 0⟩ := by simpa using hl
        exact absurd hname.symm hx
      | cons m rest => simp
    · -- it has its value, so it is not one of those that wait for theirs
      by_contra hge
      have hlen : (l :: rest).length ≤ s.locals.length := hsuffix.length_le
      rw [hs] at hsuffix
      obtain ⟨before, hbefore⟩ := hsuffix
      have hmem : l ∈ pending := by
        have hle : before.length < pending.length := by
          have := congrArg List.length hbefore
          simp only [List.length_append, List.length_cons] at this
          omega
        have hget : (pending ++ old)[before.length]? = some l := by
          rw [← hbefore]
          simp
        rw [List.getElem?_append_left hle] at hget
        exact List.mem_of_getElem? hget
      rw [hp l hmem] at hsome
      simp at hsome

/-- Leaving a block drops the locals that were declared in it. -/
theorem Tidy.leave {s : Scope} (h : s.Tidy) {new : List Local}
    (hnew : ∀ l ∈ new, l.depth = some (s.depth + 1)) :
    Scope.leave ⟨new ++ s.locals, s.depth + 1⟩ = (new.length, s) := by
  have hleaving : ∀ l ∈ new, isLeaving s.depth l = true := by
    intro l hl
    simp [isLeaving, hnew l hl]
  have hstays : ∀ l ∈ s.locals, isLeaving s.depth l = false := by
    intro l hl
    obtain ⟨d, hd, hle⟩ := h.settled l hl
    simp [isLeaving, hd, hle]
  have htake : s.locals.takeWhile (isLeaving s.depth) = [] := by
    cases hls : s.locals with
    | nil => rfl
    | cons l ls => simp [hstays l (by rw [hls]; simp)]
  have hdrop : s.locals.dropWhile (isLeaving s.depth) = s.locals := by
    cases hls : s.locals with
    | nil => rfl
    | cons l ls => simp [hstays l (by rw [hls]; simp)]
  simp only [Scope.leave, Nat.add_sub_cancel, List.takeWhile_append_of_pos hleaving,
    List.dropWhile_append_of_pos hleaving, htake, hdrop, List.append_nil]

end Scope

/-! ## Contexts -/

namespace Context

/-- Between two contexts literals have been added, none of them a function, and nothing else has
changed that concerns slots and functions. -/
structure Adds (c c' : Context) (more : List Literal) : Prop where
  literals : c'.literals = c.literals ++ more
  plain : ∀ l ∈ more, l.function? = none
  scope : c'.scope = c.scope
  unit : c'.unit = c.unit
  serial : c'.serial = c.serial

theorem Adds.refl (c : Context) : Adds c c [] :=
  ⟨by simp, by simp, rfl, rfl, rfl⟩

/-- Literals that are added in two parts. -/
theorem Adds.trans {a b c : Context} {ls ms : List Literal} (h : Adds a b ls) (k : Adds b c ms) :
    Adds a c (ls ++ ms) := by
  refine ⟨?_, ?_, k.scope.trans h.scope, k.unit.trans h.unit, k.serial.trans h.serial⟩
  · rw [k.literals, h.literals, List.append_assoc]
  · intro l hl
    rcases List.mem_append.mp hl with hl | hl
    · exact h.plain l hl
    · exact k.plain l hl

/-- Noting a text changes nothing else. -/
theorem noteString_eq (c : Context) (l : Literal) :
    ∃ strings, c.noteString l = { c with strings := strings } := by
  unfold noteString
  split
  · split
    · exact ⟨_, rfl⟩
    · exact ⟨_, rfl⟩
  · exact ⟨_, rfl⟩

/-- A literal that finds room comes last. -/
theorem addLiteral?_spec {c c' : Context} {l : Literal} {i : Nat}
    (h : c.addLiteral? l = some (i, c')) :
    c'.literals = c.literals ++ [l] ∧ c'.literals[i]? = some l ∧ c'.scope = c.scope ∧
      c'.unit = c.unit ∧ c'.serial = c.serial := by
  unfold addLiteral? at h
  split at h
  · obtain ⟨rfl, rfl⟩ := Prod.mk.inj (Option.some.inj h)
    obtain ⟨strings, hs⟩ := c.noteString_eq l
    rw [hs]
    exact ⟨rfl, by simp, rfl, rfl, rfl⟩
  · simp at h

/-- A literal that is no function changes nothing but the literals. -/
theorem addLiteral?_adds {c c' : Context} {l : Literal} {i : Nat}
    (h : c.addLiteral? l = some (i, c')) (hl : l.function? = none) :
    Adds c c' [l] ∧ c'.literals[i]? = some l := by
  obtain ⟨hls, hi, hs, hu, hn⟩ := addLiteral?_spec h
  exact ⟨⟨hls, by simpa using hl, hs, hu, hn⟩, hi⟩

/-- A name has a literal already, or gets one. -/
theorem nameLiteral?_adds {c c' : Context} {x : String} {i : Nat}
    (h : c.nameLiteral? x = some (i, c')) :
    ∃ more, Adds c c' more ∧ c'.literals[i]? = some (.string x) := by
  unfold nameLiteral? at h
  split at h
  · next j hj =>
    obtain ⟨rfl, rfl⟩ := Prod.mk.inj (Option.some.inj h)
    refine ⟨[], .refl c, ?_⟩
    obtain ⟨hlt, hp, -⟩ := List.findIdx?_eq_some_iff_getElem.mp hj
    rw [List.getElem?_eq_getElem hlt]
    cases hl : c.literals[j] with
    | string s =>
      rw [hl] at hp
      rw [beq_iff_eq.mp hp]
    | int n | float b | function f =>
      rw [hl] at hp
      simp [Literal.isString] at hp
  · obtain ⟨hadds, hi⟩ := addLiteral?_adds h rfl
    exact ⟨_, hadds, hi⟩

/-- A name that stands for something stands for a variable that fits. -/
theorem resolve?_spec {c c' : Context} {x : String} {v : Variable} {n : Nat}
    (hs : c.scope.Readable n) (h : c.resolve? x = some (v, c')) :
    ∃ more, Adds c c' more ∧ v.Fits n c'.literals := by
  cases Variable.derives_iff.mpr h with
  | slot hx hfind => exact ⟨[], .refl c, hs.find? hx hfind⟩
  | global _ _ _ hl =>
    obtain ⟨more, hadds, hi⟩ := nameLiteral?_adds hl
    exact ⟨more, hadds, hi⟩

theorem Adds.readable {c c' : Context} {more : List Literal} {n : Nat} (h : Adds c c' more)
    (hs : c.scope.Readable n) : c'.scope.Readable n := by
  rw [h.scope]
  exact hs

theorem Adds.variable {c c' : Context} {more : List Literal} {n : Nat} {v : Variable}
    (h : Adds c c' more) (hv : v.Fits n c.literals) : v.Fits n c'.literals := by
  rw [h.literals]
  exact hv.append more

/-- A tree that fits goes on fitting when literals are added. -/
theorem Adds.expr {c c' : Context} {more : List Literal} {n : Nat} {t : Expr}
    (h : Adds c c' more) (ht : t.Fits n c.literals) : t.Fits n c'.literals := by
  rw [h.literals]
  exact ht.append more

end Context

/-! ## Expressions -/

open Context in
mutual

/-- The resolved tree of an expression fits. -/
theorem Term.elaborate_fits {c c' : Context} {head : Bool} {t : Expr} {n : Nat} (e : Term)
    (hs : c.scope.Readable n) (h : e.elaborate head c = some (t, c')) :
    ∃ more, Adds c c' more ∧ t.Fits n c'.literals := by
  match e, Term.derives_iff.mpr h with
  | _, .nil | _, .bool => exact ⟨[], .refl c, trivial⟩
  | _, .int _ hl | _, .float _ hl | _, .string hl =>
    obtain ⟨hadds, hi⟩ := addLiteral?_adds hl rfl
    exact ⟨_, hadds, hi⟩
  | _, .name hv | _, .memberOfName hv _ => exact resolve?_spec hs hv
  | .assign _ value, .assign hv ht | .assignMember _ _ value, .assignMember hv _ ht =>
    obtain ⟨ls, ha, hfv⟩ := resolve?_spec hs hv
    obtain ⟨ms, hb, hft⟩ := value.elaborate_fits (ha.readable hs) ht
    exact ⟨_, ha.trans hb, hb.variable hfv, hft⟩
  | .group e _, .group ht => exact e.elaborate_fits hs ht
  | .member e _ _, .member _ ht _ | .unary _ e, .unary ht =>
    obtain ⟨ls, ha, hft⟩ := e.elaborate_fits hs ht
    exact ⟨ls, ha, hft⟩
  | .binary _ lhs rhs, .binary hl hr =>
    obtain ⟨ls, ha, hfl⟩ := lhs.elaborate_fits hs hl
    obtain ⟨ms, hb, hfr⟩ := rhs.elaborate_fits (ha.readable hs) hr
    exact ⟨_, ha.trans hb, hb.expr hfl, hfr⟩
  | .call callee arguments _, .call hf hts hmax =>
    obtain ⟨ls, ha, hff⟩ := callee.elaborate_fits hs hf
    obtain ⟨ms, hb, hfts, hlen⟩ := Term.elaborateAll_fits arguments (ha.readable hs) hts
    refine ⟨_, ha.trans hb, hb.expr hff, hfts, ?_⟩
    rw [hlen]
    exact hmax

/-- The resolved trees of arguments fit, and there are as many as arguments. -/
theorem Term.elaborateAll_fits {c c' : Context} {ts : List Expr} {n : Nat} (es : List Term)
    (hs : c.scope.Readable n) (h : Term.elaborateAll es c = some (ts, c')) :
    ∃ more, Adds c c' more ∧ Expr.FitsAll n c'.literals ts ∧ ts.length = es.length := by
  match es, Term.derivesAll_iff.mpr h with
  | _, .nil => exact ⟨[], .refl c, trivial, rfl⟩
  | e :: es, .cons ht hts =>
    obtain ⟨ls, ha, hft⟩ := e.elaborate_fits hs ht
    obtain ⟨ms, hb, hfts, hlen⟩ := Term.elaborateAll_fits es (ha.readable hs) hts
    exact ⟨_, ha.trans hb, ⟨hb.expr hft, hfts⟩, by simp [hlen]⟩

end

/-! ## Functions -/

/-- Functions of one compilation, each with a number of its own. -/
structure Numbered (unit first next : Nat) (fs : List Function) : Prop where
  within : ∀ f ∈ fs, f.id.unit = unit ∧ first ≤ f.id.serial ∧ f.id.serial < next
  distinct : fs.Pairwise fun f g => f.id.serial ≠ g.id.serial

theorem Numbered.nil (unit first next : Nat) : Numbered unit first next [] :=
  ⟨by simp, .nil⟩

/-- Functions with numbers from two ranges, one behind the other. -/
theorem Numbered.append {unit a b c : Nat} {fs gs : List Function} (hf : Numbered unit a b fs)
    (hg : Numbered unit b c gs) (hab : a ≤ b) (hbc : b ≤ c) : Numbered unit a c (fs ++ gs) := by
  refine ⟨?_, ?_⟩
  · intro f h
    rcases List.mem_append.mp h with h | h
    · obtain ⟨hu, hl, hr⟩ := hf.within f h
      exact ⟨hu, hl, by omega⟩
    · obtain ⟨hu, hl, hr⟩ := hg.within f h
      exact ⟨hu, by omega, hr⟩
  · rw [List.pairwise_append]
    refine ⟨hf.distinct, hg.distinct, ?_⟩
    intro f h g k
    have hlt := (hf.within f h).2.2
    have hle := (hg.within g k).2.1
    omega

/-- In one compilation the number tells the function. -/
theorem Numbered.eq_of_id {unit first next : Nat} {fs : List Function}
    (h : Numbered unit first next fs) {f g : Function} (hf : f ∈ fs) (hg : g ∈ fs)
    (hid : f.id = g.id) : f = g := by
  by_contra hne
  have hsymm : Std.Symm fun f g : Function => f.id.serial ≠ g.id.serial := ⟨fun _ _ => Ne.symm⟩
  have hserial : f.id.serial = g.id.serial := by rw [hid]
  exact h.distinct.forall hf hg hne hserial

/-- Between two contexts literals have been added, and the functions among them are numbered and
made of the given bodies. -/
structure Context.Compiles (c c' : Context) (more : List Literal) (bodies : List Block) : Prop where
  literals : c'.literals = c.literals ++ more
  fitting : ∀ f ∈ Literal.familyAll more, f.MadeOf bodies
  numbered : Numbered c.unit c.serial c'.serial (Literal.familyAll more)
  unit : c'.unit = c.unit
  serial : c.serial ≤ c'.serial

namespace Context

/-- Literals that are no functions are made of no bodies. -/
theorem Adds.compiles {c c' : Context} {more : List Literal} (h : Adds c c' more)
    (bodies : List Block) : Compiles c c' more bodies := by
  have hplain := Literal.familyAll_of_plain h.plain
  refine ⟨h.literals, ?_, ?_, h.unit, Nat.le_of_eq h.serial.symm⟩
  · rw [hplain]
    simp
  · rw [hplain]
    exact .nil _ _ _

theorem Compiles.mono {c c' : Context} {more : List Literal} {bs cs : List Block}
    (h : Compiles c c' more bs) (hs : bs ⊆ cs) : Compiles c c' more cs :=
  ⟨h.literals, fun f hf => (h.fitting f hf).mono hs, h.numbered, h.unit, h.serial⟩

/-- Functions that are added in two parts. -/
theorem Compiles.trans {a b c : Context} {ls ms : List Literal} {bodies : List Block}
    (h : Compiles a b ls bodies) (k : Compiles b c ms bodies) : Compiles a c (ls ++ ms) bodies := by
  refine ⟨?_, ?_, ?_, k.unit.trans h.unit, Nat.le_trans h.serial k.serial⟩
  · rw [k.literals, h.literals, List.append_assoc]
  · intro f hf
    rw [Literal.familyAll_append] at hf
    rcases List.mem_append.mp hf with hf | hf
    · exact h.fitting f hf
    · exact k.fitting f hf
  · rw [Literal.familyAll_append]
    have hk := k.numbered
    rw [h.unit] at hk
    exact h.numbered.append hk h.serial k.serial

/-- Contexts that differ in nothing that concerns literals and functions. -/
theorem Compiles.of_eq {c c' : Context} (hl : c'.literals = c.literals) (hu : c'.unit = c.unit)
    (hs : c'.serial = c.serial) (bodies : List Block) : Compiles c c' [] bodies :=
  ⟨by simp [hl], by simp [Literal.familyAll], .nil _ _ _, hu, Nat.le_of_eq hs.symm⟩

theorem Compiles.expr {c c' : Context} {more : List Literal} {bodies : List Block}
    {n : Nat} {t : Expr} (h : Compiles c c' more bodies) (ht : t.Fits n c.literals) :
    t.Fits n c'.literals := by
  rw [h.literals]
  exact ht.append more

/-- A statement that fits goes on fitting when functions are added. -/
theorem Compiles.stmt {c c' : Context} {more : List Literal} {bodies : List Block}
    {n : Nat} {t : Stmt} (h : Compiles c c' more bodies) (ht : t.Fits n c.literals) :
    t.Fits n c'.literals := by
  rw [h.literals]
  exact ht.append more

theorem Compiles.block {c c' : Context} {more : List Literal} {bodies : List Block}
    {n : Nat} {b : Block} (h : Compiles c c' more bodies) (hb : b.Fits n c.literals) :
    b.Fits n c'.literals := by
  rw [h.literals]
  exact hb.append more

/-! ## Declarations -/

/-- Outside all blocks a declaration makes no local; inside, it puts one on top that has no value
yet. -/
theorem declare?_spec {c d : Context} {x : String} (h : c.declare? x = some d) :
    c.scope.depth = 0 ∧ d = c ∨
      c.scope.depth ≠ 0 ∧ d = { c with scope := ⟨⟨x, none⟩ :: c.scope.locals, c.scope.depth⟩ } := by
  unfold declare? at h
  split at h
  · next hd => exact .inl ⟨hd, (Option.some.inj h).symm⟩
  · next hd =>
    split at h
    · simp at h
    · obtain ⟨s, hs, rfl⟩ := Option.map_eq_some_iff.mp h
      unfold Scope.add? at hs
      split at hs
      · rw [← Option.some.inj hs]
        exact .inr ⟨hd, rfl⟩
      · simp at hs

/-- A local that gets its value at once. -/
theorem declareSettled?_spec {c d : Context} {x : String} (hdepth : c.scope.depth ≠ 0)
    (h : c.declareSettled? x = some d) :
    d = { c with scope := ⟨⟨x, some c.scope.depth⟩ :: c.scope.locals, c.scope.depth⟩ } := by
  obtain ⟨e, he, rfl⟩ := Option.map_eq_some_iff.mp h
  rcases declare?_spec he with ⟨hz, -⟩ | ⟨-, rfl⟩
  · exact absurd hz hdepth
  · simp [settle, Scope.settle, hdepth]

/-- The name of a function is a global at once, or the next local. -/
theorem declareFunction?_spec {c d : Context} {x : String} (h : c.declareFunction? x = some d) :
    c.scope.depth = 0 ∧ d = c.addGlobal x ∨
      c.scope.depth ≠ 0 ∧
        d = { c with scope := ⟨⟨x, some c.scope.depth⟩ :: c.scope.locals, c.scope.depth⟩ } := by
  unfold declareFunction? at h
  split at h
  · next hdepth => exact .inl ⟨hdepth, (Option.some.inj h).symm⟩
  · next hdepth => exact .inr ⟨hdepth, declareSettled?_spec hdepth h⟩

/-- The parameters of a function become its first locals. -/
theorem declareAll?_spec {xs : List String} {c d : Context} (hdepth : c.scope.depth ≠ 0)
    (h : declareAll? xs c = some d) :
    ∃ new : List Local, d = { c with scope := ⟨new ++ c.scope.locals, c.scope.depth⟩ } ∧
      new.map Local.name = xs.reverse ∧ ∀ l ∈ new, l.depth = some c.scope.depth := by
  induction xs generalizing c with
  | nil =>
    rw [← Option.some.inj h]
    exact ⟨[], rfl, rfl, by simp⟩
  | cons x xs ih =>
    obtain ⟨e, he, hxs⟩ := Option.bind_eq_some_iff.mp h
    have hspec := declareSettled?_spec hdepth he
    subst hspec
    obtain ⟨new, rfl, hnames, hnew⟩ := ih (by exact hdepth) hxs
    refine ⟨new ++ [⟨x, some c.scope.depth⟩], ?_, ?_, ?_⟩
    · simp
    · simp [hnames]
    · intro l hl
      rcases List.mem_append.mp hl with hl | hl
      · exact hnew l hl
      · obtain rfl : l = ⟨x, some c.scope.depth⟩ := by simpa using hl
        rfl

/-- Outside all blocks a variable is a global, named by a literal; inside, it is the local on
top. -/
theorem define?_spec {c d : Context} {x : String} {v : Variable} (h : c.define? x = some (v, d)) :
    c.scope.depth = 0 ∧ (∃ more, Adds c d more ∧ v.FitsNew c.scope.locals.length d.literals) ∧
        v.place.locals = 0 ∧ v.name = x ∨
      c.scope.depth ≠ 0 ∧ v = ⟨x, .slot (c.scope.locals.length - 1)⟩ ∧
        d = { c with scope := c.scope.settle } := by
  unfold define? at h
  split at h
  · next hd =>
    obtain ⟨⟨i, e⟩, he, hv⟩ := Option.map_eq_some_iff.mp h
    obtain ⟨rfl, rfl⟩ := Prod.mk.inj hv
    obtain ⟨more, hadds, hi⟩ := nameLiteral?_adds he
    refine .inl ⟨hd, ⟨more, ?_, hi⟩, rfl, rfl⟩
    exact ⟨hadds.literals, hadds.plain, hadds.scope, hadds.unit, hadds.serial⟩
  · next hd =>
    obtain ⟨rfl, rfl⟩ := Prod.mk.inj (Option.some.inj h)
    exact .inr ⟨hd, rfl, by simp [settle, hd]⟩

end Context

end EntityScript
