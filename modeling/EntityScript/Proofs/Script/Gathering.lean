/-
# What a script leaves among the literals

The literals of a function are gathered while its body is resolved: its numbers and texts, the names
of its globals, and the functions that are declared in it.  Beside them goes a row of all texts of
the script, each of them once.

`Clause.elaborate_gathers` says what a statement adds.  Among the new literals are the functions
that the statement declares, in order, wherever it does so outside of further functions
(`Clause.declared`); and the new texts are those among the new literals and among the literals of
all functions inside them.
-/
import EntityScript.Proofs.Code.Globals
import EntityScript.Proofs.Script.Resolution
import Mathlib.Data.List.Forall2
import Mathlib.Data.List.Nodup

namespace EntityScript

/-! ## Declarations of functions -/

/-- A function as it is declared: its site, its name, its parameters, and how many blocks are around
it. -/
structure Declaration where
  site : Nat
  name : String
  parameters : List String
  blocks : Nat

/-- The function that a declaration has become. -/
structure Declaration.Became (unit : Nat) (d : Declaration) (f : Function) : Prop where
  id : f.id = ⟨unit, d.site⟩
  name : f.name = some d.name
  arity : f.arity = d.parameters.length

mutual

/-- The functions that are declared in a statement inside the given number of blocks, apart from
those inside other functions. -/
def Clause.declared : (blocks : Nat) → Clause → List Declaration
  | blocks, .function site x parameters _ _ => [⟨site, x, parameters, blocks⟩]
  | blocks, .ifThen _ _ body => body.declared blocks
  | blocks, .ifElse _ _ body other => body.declared blocks ++ other.declared blocks
  | blocks, .loop _ _ body => body.declared blocks
  | blocks, .block body _ => Clause.declaredAll (blocks + 1) body
  | _, .expr _ _ | _, .print _ _ | _, .declare _ _ _ _ | _, .ret _ _ | _, .yield _
  | _, .stop _ => []

/-- The functions that are declared in several statements. -/
def Clause.declaredAll : (blocks : Nat) → List Clause → List Declaration
  | _, [] => []
  | blocks, s :: ss => s.declared blocks ++ Clause.declaredAll blocks ss

end

/-- The functions that a script declares outside of other functions. -/
def Script.declared (s : Script) : List Declaration :=
  Clause.declaredAll 0 s.body

/-! ## Texts -/

namespace Literal

/-- The texts among some literals and among those of all functions inside them. -/
def textsAll (ls : List Literal) : List String :=
  (ls ++ (familyAll ls).flatMap (·.chunk.literals)).filterMap string?

/-- The texts of literals are among the literals, or among those of a function inside them. -/
theorem mem_textsAll {ls : List Literal} {text : String} :
    text ∈ textsAll ls ↔ .string text ∈ ls ∨
    ∃ f ∈ familyAll ls, .string text ∈ f.chunk.literals := by
  simp [textsAll, List.mem_filterMap, string?_eq_some]

/-- The texts of literals that are added come on top of those before. -/
theorem mem_textsAll_append {ls more : List Literal} {text : String} :
    text ∈ textsAll (ls ++ more) ↔ text ∈ textsAll ls ∨ text ∈ textsAll more := by
  simp only [mem_textsAll, familyAll_append, List.mem_append, or_and_right, exists_or]
  exact or_or_or_comm

end Literal

/-- The texts among the literals of a function and of all functions inside it. -/
def Function.texts (f : Function) : List String :=
  Literal.textsAll f.chunk.literals

/-- The texts of a function are those of the functions of its family. -/
theorem Function.mem_texts {f : Function} {text : String} :
    text ∈ f.texts ↔ ∃ g ∈ f.family, .string text ∈ g.chunk.literals := by
  rw [texts, Literal.mem_textsAll, f.family_eq, List.exists_mem_cons_iff]

/-- A function among literals brings its texts with it. -/
theorem Literal.mem_textsAll_function {f : Function} {text : String} :
    text ∈ textsAll [.function f] ↔ text ∈ f.texts := by
  simp [mem_textsAll, Function.mem_texts, familyAll, family]

/-! ## Contexts -/

namespace Context

/-- Between two contexts literals have been added, among them the functions with the given
declarations, and the texts have been noted with them. -/
structure Gathers (c c' : Context) (more : List Literal) (ds : List Declaration) : Prop where
  literals : c'.literals = c.literals ++ more
  functions : List.Forall₂ (Declaration.Became c.unit) ds (more.filterMap Literal.function?)
  strings : ∀ text, text ∈ c'.strings ↔ text ∈ c.strings ∨ text ∈ Literal.textsAll more
  nodup : c.strings.Nodup → c'.strings.Nodup
  unit : c'.unit = c.unit

variable {c c' d outer inner : Context} {more ls ms : List Literal} {ds es : List Declaration}
  {l : Literal} {x : String} {i : Nat}

/-- Contexts that differ in nothing that concerns literals. -/
theorem Gathers.of_eq (hliterals : c'.literals = c.literals) (hstrings : c'.strings = c.strings)
    (hunit : c'.unit = c.unit) : Gathers c c' [] [] := by
  refine ⟨by rw [hliterals, List.append_nil], .nil, fun text => ?_, fun h => hstrings ▸ h, hunit⟩
  rw [hstrings, Literal.mem_textsAll]
  simp [Literal.familyAll]

theorem Gathers.refl (c : Context) : Gathers c c [] [] :=
  .of_eq rfl rfl rfl

/-- What is gathered in two parts is gathered in one. -/
theorem Gathers.trans (h : Gathers c d ls ds) (k : Gathers d c' ms es) :
    Gathers c c' (ls ++ ms) (ds ++ es) := by
  refine ⟨?_, ?_, fun text => ?_, fun hc => k.nodup (h.nodup hc), k.unit.trans h.unit⟩
  · rw [k.literals, h.literals, List.append_assoc]
  · have hfunctions := k.functions
    rw [h.unit] at hfunctions
    rw [List.filterMap_append]
    exact List.rel_append h.functions hfunctions
  · rw [k.strings, h.strings, Literal.mem_textsAll_append, or_assoc]

/-- A text is noted with the literal that it is. -/
theorem noteString_strings (c : Context) (text : String) :
    (∀ s, s ∈ (c.noteString (.string text)).strings ↔ s ∈ c.strings ∨ s = text) ∧
      (c.strings.Nodup → (c.noteString (.string text)).strings.Nodup) := by
  rw [noteString]
  split
  · next hmem =>
    refine ⟨fun s => ⟨.inl, ?_⟩, id⟩
    rintro (h | rfl)
    · exact h
    · exact List.contains_iff_mem.mp hmem
  · next hmem =>
    refine ⟨fun s => ?_, fun h => List.nodup_cons.mpr
      ⟨fun hin => hmem (List.contains_iff_mem.mpr hin), h⟩⟩
    exact List.mem_cons.trans or_comm

/-- A literal that is no function. -/
theorem addLiteral?_gathers (hl : l.function? = none) (h : c.addLiteral? l = some (i, c')) :
    Gathers c c' [l] [] := by
  obtain ⟨hliterals, -, -, hunit, -⟩ := addLiteral?_spec h
  have hfunctions : [l].filterMap Literal.function? = [] := by simp [hl]
  unfold addLiteral? at h
  split at h
  · obtain ⟨-, rfl⟩ := Prod.mk.inj (Option.some.inj h)
    refine ⟨hliterals, hfunctions ▸ .nil, fun text => ?_, ?_, hunit⟩
    · show text ∈ (c.noteString l).strings ↔ _
      rw [Literal.mem_textsAll]
      cases l with
      | string s => simp [(c.noteString_strings s).1, Literal.familyAll, Literal.family]
      | int | float => simp [noteString, Literal.familyAll, Literal.family]
      | function f => cases hl
    · show c.strings.Nodup → (c.noteString l).strings.Nodup
      cases l with
      | string s => exact (c.noteString_strings s).2
      | int | float | function => exact id
  · cases h

/-- A name may add a text, but no function. -/
theorem nameLiteral?_gathers (h : c.nameLiteral? x = some (i, c')) :
    ∃ more, Gathers c c' more [] := by
  unfold nameLiteral? at h
  split at h
  · obtain ⟨-, rfl⟩ := Prod.mk.inj (Option.some.inj h)
    exact ⟨[], .refl c⟩
  · exact ⟨_, addLiteral?_gathers rfl h⟩

theorem resolve?_gathers {v : Variable} (h : c.resolve? x = some (v, c')) :
    ∃ more, Gathers c c' more [] := by
  cases Variable.derives_iff.mpr h with
  | slot => exact ⟨[], .refl c⟩
  | global _ _ _ hl => exact nameLiteral?_gathers hl

/-! ### Names -/

theorem settle_gathers (c : Context) : Gathers c c.settle [] [] := by
  rw [settle]
  split
  · exact .refl c
  · exact .of_eq rfl rfl rfl

theorem declare?_gathers (h : c.declare? x = some c') : Gathers c c' [] [] := by
  rcases declare?_spec h with ⟨-, rfl⟩ | ⟨-, rfl⟩
  · exact .refl c'
  · exact .of_eq rfl rfl rfl

theorem declareSettled?_gathers (h : c.declareSettled? x = some c') : Gathers c c' [] [] := by
  obtain ⟨d, hd, rfl⟩ := Option.map_eq_some_iff.mp h
  exact (declare?_gathers hd).trans d.settle_gathers

/-- Declaring parameters adds no literals. -/
theorem declareAll?_gathers {xs : List String} (h : declareAll? xs c = some c') :
    Gathers c c' [] [] := by
  induction xs generalizing c with
  | nil =>
    obtain rfl := Option.some.inj h
    exact .refl c
  | cons x xs ih =>
    obtain ⟨d, hd, hxs⟩ := Option.bind_eq_some_iff.mp h
    exact (declareSettled?_gathers hd).trans (ih hxs)

/-- Defining a global may add its name. -/
theorem define?_gathers {v : Variable} (h : c.define? x = some (v, c')) :
    ∃ more, Gathers c c' more [] := by
  unfold define? at h
  split at h
  · obtain ⟨⟨j, d⟩, hname, he⟩ := Option.map_eq_some_iff.mp h
    obtain ⟨-, rfl⟩ := Prod.mk.inj he
    obtain ⟨more, hd⟩ := nameLiteral?_gathers hname
    exact ⟨_, hd.trans (.of_eq rfl rfl rfl)⟩
  · obtain ⟨-, rfl⟩ := Prod.mk.inj (Option.some.inj h)
    exact ⟨[], c.settle_gathers⟩

theorem declareFunction?_gathers (h : c.declareFunction? x = some c') : Gathers c c' [] [] := by
  rcases declareFunction?_spec h with ⟨-, rfl⟩ | ⟨-, rfl⟩
  · exact .of_eq rfl rfl rfl
  · exact .of_eq rfl rfl rfl

/-- A function that is closed is one literal of the function around it.  The texts that were noted
in its body are those among its literals. -/
theorem closeFunction?_gathers {f : Function} {decl : Declaration}
    (hinner : Gathers outer.openFunction inner more ds)
    (hliterals : f.chunk.literals = inner.literals) (hf : decl.Became outer.unit f)
    (h : inner.closeFunction? outer f = some (i, c')) : Gathers outer c' [.function f] [decl] := by
  unfold closeFunction? addLiteral? at h
  split at h
  · obtain ⟨-, rfl⟩ := Prod.mk.inj (Option.some.inj h)
    refine ⟨rfl, .cons hf .nil, fun text => ?_, hinner.nodup, hinner.unit⟩
    have hmore : f.chunk.literals = more := hliterals.trans hinner.literals
    rw [Literal.mem_textsAll_function, Function.texts, hmore]
    exact hinner.strings text
  · cases h

end Context

/-! ## Expressions -/

open Context

mutual

/-- An expression declares no function. -/
theorem Term.elaborate_gathers {c c' : Context} {head : Bool} {t : Expr} (e : Term)
    (h : e.elaborate head c = some (t, c')) : ∃ more, Gathers c c' more [] := by
  match e, Term.derives_iff.mpr h with
  | _, .nil | _, .bool => exact ⟨[], .refl c⟩
  | _, .int _ hl | _, .float _ hl | _, .string hl => exact ⟨_, addLiteral?_gathers rfl hl⟩
  | _, .name hv | _, .memberOfName hv _ => exact resolve?_gathers hv
  | .assign _ value, .assign hv ht | .assignMember _ _ value, .assignMember hv _ ht =>
    obtain ⟨ls, hd⟩ := resolve?_gathers hv
    obtain ⟨ms, hd'⟩ := value.elaborate_gathers ht
    exact ⟨_, hd.trans hd'⟩
  | .group e _, .group ht | .member e _ _, .member _ ht _ | .unary _ e, .unary ht =>
    exact e.elaborate_gathers ht
  | .binary _ lhs rhs, .binary hl hr =>
    obtain ⟨ls, hd⟩ := lhs.elaborate_gathers hl
    obtain ⟨ms, hd'⟩ := rhs.elaborate_gathers hr
    exact ⟨_, hd.trans hd'⟩
  | .call callee arguments _, .call hf hts _ =>
    obtain ⟨ls, hd⟩ := callee.elaborate_gathers hf
    obtain ⟨ms, hd'⟩ := Term.elaborateAll_gathers arguments hts
    exact ⟨_, hd.trans hd'⟩

/-- Expressions may add texts and numbers, but no functions. -/
theorem Term.elaborateAll_gathers {c c' : Context} {ts : List Expr} (es : List Term)
    (h : Term.elaborateAll es c = some (ts, c')) : ∃ more, Gathers c c' more [] := by
  match es, Term.derivesAll_iff.mpr h with
  | _, .nil => exact ⟨[], .refl c⟩
  | e :: es, .cons ht hts =>
    obtain ⟨ls, hd⟩ := e.elaborate_gathers ht
    obtain ⟨ms, hd'⟩ := Term.elaborateAll_gathers es hts
    exact ⟨_, hd.trans hd'⟩

end

theorem Context.value?_gathers {c c' : Context} {line : Nat} {value : Option Term} {t : Expr}
    (h : c.value? line value = some (t, c')) : ∃ more, Gathers c c' more [] := by
  cases value with
  | none =>
    obtain ⟨-, rfl⟩ := Prod.mk.inj (Option.some.inj h)
    exact ⟨[], .refl c⟩
  | some e => exact e.elaborate_gathers h

/-! ## Statements -/

mutual

/-- A statement leaves the functions that it declares and the texts that are written in it. -/
theorem Clause.elaborate_gathers {c c' : Context} {t : Stmt} (s : Clause) (blocks : Nat)
    (h : s.elaborate c = some (t, c')) : ∃ more, Gathers c c' more (s.declared blocks) := by
  match s, Clause.derives_iff.mpr h with
  | _, .expr ht | _, .print ht => exact Term.elaborate_gathers _ ht
  | _, .declare hd ht hv =>
    obtain ⟨ls, hd'⟩ := value?_gathers ht
    obtain ⟨ms, hc'⟩ := define?_gathers hv
    exact ⟨_, ((declare?_gathers hd).trans hd').trans hc'⟩
  | .function _ x parameters body _, .function houter _ hopened hb hclose hv =>
    obtain ⟨ls, hbody⟩ := Clause.elaborateAll_gathers body 0 hb
    have hinner := (declareAll?_gathers hopened).trans hbody
    have hclosed : Gathers _ _ _ [⟨_, x, parameters, blocks⟩] :=
      closeFunction?_gathers hinner rfl ⟨congrArg (FunctionId.mk · _) hinner.unit, rfl, rfl⟩ hclose
    obtain ⟨ms, hc'⟩ := define?_gathers hv
    exact ⟨_, ((declareFunction?_gathers houter).trans hclosed).trans hc'⟩
  | .ifThen cond _ body, .ifThen ht hb _ | .loop cond _ body, .loop ht hb _ =>
    obtain ⟨ls, hd⟩ := cond.elaborate_gathers ht
    obtain ⟨ms, hc'⟩ := body.elaborate_gathers blocks hb
    exact ⟨_, hd.trans hc'⟩
  | .ifElse cond _ body other, .ifElse ht hb _ ho _ =>
    obtain ⟨ls, hd⟩ := cond.elaborate_gathers ht
    obtain ⟨ms, hd'⟩ := body.elaborate_gathers blocks hb
    obtain ⟨ns, hc'⟩ := other.elaborate_gathers blocks ho
    exact ⟨_, (hd.trans hd').trans hc'⟩
  | _, .ret ht => exact value?_gathers ht
  | _, .yield | _, .stop => exact ⟨[], .refl c⟩
  | .block body _, .block (d := d) hb =>
    obtain ⟨ls, hd⟩ := Clause.elaborateAll_gathers body (blocks + 1) hb
    have henter : Gathers c c.enter [] [] := .of_eq rfl rfl rfl
    have hleave : Gathers d d.leave [] [] := .of_eq rfl rfl rfl
    have hall := (henter.trans hd).trans hleave
    rw [List.append_nil (_ ++ Clause.declaredAll _ _)] at hall
    exact ⟨_, hall⟩

/-- Statements leave the functions that they declare and the texts that are written in them. -/
theorem Clause.elaborateAll_gathers {c c' : Context} {read b : Block} (ss : List Clause)
    (blocks : Nat) (h : Clause.elaborateAll ss read c = some (b, c')) :
    ∃ more, Gathers c c' more (Clause.declaredAll blocks ss) := by
  match ss, Clause.derivesAll_iff.mpr h with
  | _, .nil => exact ⟨[], .refl c⟩
  | s :: ss, .cons ht hts =>
    obtain ⟨ls, hd⟩ := s.elaborate_gathers blocks ht
    obtain ⟨ms, hrest⟩ := Clause.elaborateAll_gathers ss blocks hts
    exact ⟨_, hd.trans hrest⟩

end

/-- The functions of a program are those that its script declares outside of other functions, and
its texts are those among the literals of its functions, each of them once. -/
theorem Script.gathered {s : Script} {unit : Nat} {globals : List String} {p : Program}
    (hp : s.program? unit globals = some p) :
    List.Forall₂ (Declaration.Became unit) s.declared p.functions ∧ p.strings.Nodup ∧
      ∀ text, text ∈ p.strings ↔ text ∈ p.main.texts := by
  obtain ⟨b, c, hb, rfl⟩ := Script.program?_eq_some_iff.mp hp
  obtain ⟨more, hc⟩ := Clause.elaborateAll_gathers s.body 0 hb
  have hmore : c.literals = more := hc.literals
  refine ⟨?_, List.nodup_reverse.mpr (hc.nodup List.nodup_nil), fun text => ?_⟩
  · show List.Forall₂ _ _ (c.literals.filterMap Literal.function?)
    rw [hmore]
    exact hc.functions
  · show text ∈ c.strings.reverse ↔ text ∈ Literal.textsAll c.literals
    rw [List.mem_reverse, hc.strings, hmore]
    exact or_iff_right List.not_mem_nil

end EntityScript
