/-
# Scripts behind other functions

A script is resolved in the same way whether the functions it may use are declared before it or
belong to its host.  The two contexts know the same names and have the same locals.  They differ in
the lines, in how many functions came before, and in the literals: the first has those of the
declarations, too, so what it still has room for the second has room for (`Context.Parallel`).  So
if the first keeps the static rules the second does, and the two have code of the same shape
(`Clause.elaborate_parallel`).
-/
import EntityScript.Proofs.Code.Shape
import EntityScript.Proofs.Script.Accompanying
import EntityScript.Proofs.Script.Fitting
import EntityScript.Proofs.Script.Relining
import Mathlib.Data.List.Perm.Subperm

namespace EntityScript

section

variable {ρ ρ' : FunctionId → FunctionId} {k : Nat}

/-! ## Contexts -/

namespace Context

/-- Two contexts in which the same names can be used, and the second of which has no more literals.
In the first, `k` functions have been numbered before. -/
structure Parallel (ρ ρ' : FunctionId → FunctionId) (k : Nat) (c c' : Context) : Prop where
  scope : c'.scope = c.scope
  literals : (Literal.shapes ρ' c'.literals).Subperm (Literal.shapes ρ c.literals)
  room : c.literals.length ≤ maxLiterals
  globals : ∀ x, x ∈ c'.globals ↔ x ∈ c.globals
  serial : c.serial = c'.serial + k
  positive : 1 ≤ c'.serial
  ids : ∀ n, 1 ≤ n → ρ' ⟨c'.unit, n⟩ = ρ ⟨c.unit, n + k⟩

/-- Two contexts a little further on, with literals behind those that were there. -/
structure Onward (ρ ρ' : FunctionId → FunctionId) (k : Nat) (c c' d d' : Context) : Prop where
  parallel : Parallel ρ ρ' k d d'
  grown : c.literals <+: d.literals
  grown' : c'.literals <+: d'.literals

/-- Two results that are related by what the literals say, and contexts a little further on. -/
inductive Yields {α : Type} (ρ ρ' : FunctionId → FunctionId) (k : Nat)
    (Q : List Literal → List Literal → α → α → Prop) (c c' : Context) :
    α × Context → α × Context → Prop where
  | mk {a a' : α} {d d' : Context} : Onward ρ ρ' k c c' d d' → Q d.literals d'.literals a a' →
    Yields ρ ρ' k Q c c' (a, d) (a', d')

/-- Two indices of a literal. -/
def Found (l l' : Literal) (ls ls' : List Literal) (i i' : Nat) : Prop :=
  ls[i]? = some l ∧ ls'[i']? = some l'

/-- The same variable: a local in the same slot, or a global with its name among the literals. -/
inductive SameVariable (ls ls' : List Literal) : Variable → Variable → Prop where
  | slot (x : String) (n : Nat) : SameVariable ls ls' ⟨x, .slot n⟩ ⟨x, .slot n⟩
  | global {x : String} {i i' : Nat} : Found (.string x) (.string x) ls ls' i i' →
    SameVariable ls ls' ⟨x, .global i⟩ ⟨x, .global i'⟩

/-- Trees with the same code. -/
def SameTree {α : Type} (ρ ρ' : FunctionId → FunctionId) (code : α → List Placed)
    (ls ls' : List Literal) (t t' : α) :
    Prop :=
  SameCode ρ ρ' ls ls' (code t) (code t')

variable {c c' d d' e e' : Context} {α β γ : Type} {Q : List Literal → List Literal → α → α → Prop}
  {x : String}

theorem Onward.refl (h : Parallel ρ ρ' k c c') : Onward ρ ρ' k c c' c c' :=
  ⟨h, List.prefix_rfl, List.prefix_rfl⟩

theorem Onward.trans (h : Onward ρ ρ' k c c' d d') (h' : Onward ρ ρ' k d d' e e') :
    Onward ρ ρ' k c c' e e' :=
  ⟨h'.parallel, h.grown.trans h'.grown, h.grown'.trans h'.grown'⟩

/-- Results with their contexts are taken further on both sides. -/
theorem Yields.bind {z z' : Option (α × Context)} {f : α × Context → Option β}
    {g : α × Context → Option γ} {S : β → γ → Prop} (h : Accompanies (Yields ρ ρ' k Q c c') z z')
    (hf : ∀ a a' d d', Onward ρ ρ' k c c' d d' → Q d.literals d'.literals a a' →
      Accompanies S (f (a, d)) (g (a', d'))) : Accompanies S (z >>= f) (z' >>= g) := by
  refine h.bind fun p q _ hpq => ?_
  cases hpq with
  | mk hd hq => exact hf _ _ _ _ hd hq

theorem Yields.map {z z' : Option (α × Context)} {f g : α × Context → β} {S : β → β → Prop}
    (h : Accompanies (Yields ρ ρ' k Q c c') z z')
    (hf : ∀ a a' d d', Onward ρ ρ' k c c' d d' → Q d.literals d'.literals a a' →
      S (f (a, d)) (g (a', d'))) :
    Accompanies S (z.map f) (z'.map g) := by
  refine h.map fun p q hpq => ?_
  cases hpq with
  | mk hd hq => exact hf _ _ _ _ hd hq

/-- Results after some steps that gave nothing of their own. -/
theorem Yields.after (h : Onward ρ ρ' k c c' d d') {z z' : Option (α × Context)}
    (h' : Accompanies (Yields ρ ρ' k Q d d') z z') : Accompanies (Yields ρ ρ' k Q c c') z z' := by
  intro p hp
  obtain ⟨q, hq, hpq⟩ := h' p hp
  refine ⟨q, hq, ?_⟩
  cases hpq with
  | mk he hr => exact .mk (h.trans he) hr

/-- A literal stays where it is when others are added. -/
theorem Found.mono {l l' : Literal} {ls ls' ms ms' : List Literal} {i i' : Nat}
    (h : Found l l' ls ls' i i') (hls : ls <+: ms) (hls' : ls' <+: ms') :
    Found l l' ms ms' i i' := by
  obtain ⟨new, rfl⟩ := hls
  obtain ⟨new', rfl⟩ := hls'
  rw [Found, List.getElem?_append_left (List.getElem?_eq_some_iff.mp h.1).1,
    List.getElem?_append_left (List.getElem?_eq_some_iff.mp h.2).1]
  exact h

/-- A variable is the same one after literals have been added. -/
theorem SameVariable.mono {ls ls' ms ms' : List Literal} {v v' : Variable}
    (h : SameVariable ls ls' v v') (hls : ls <+: ms) (hls' : ls' <+: ms') :
    SameVariable ms ms' v v' := by
  cases h with
  | slot x n => exact .slot x n
  | global hfound => exact .global (hfound.mono hls hls')

namespace Parallel

/-- A literal that the first context has room for. -/
theorem addLiteral? (h : Parallel ρ ρ' k c c') {l l' : Literal} (hl : l.shape ρ = l'.shape ρ') :
    Accompanies (Yields ρ ρ' k (Found l l') c c') (c.addLiteral? l) (c'.addLiteral? l') := by
  have hle : c'.literals.length ≤ c.literals.length := by
    have hlength := h.literals.length_le
    rwa [Literal.length_shapes, Literal.length_shapes] at hlength
  rw [Context.addLiteral?, Context.addLiteral?]
  split
  · next hlt =>
    rw [if_pos (by omega)]
    obtain ⟨strings, hs⟩ := c.noteString_eq l
    obtain ⟨strings', hs'⟩ := c'.noteString_eq l'
    rw [hs, hs']
    have hliterals : (Literal.shapes ρ' (c'.literals ++ [l'])).Subperm
      (Literal.shapes ρ (c.literals ++ [l])) := by
      rw [Literal.shapes_append, Literal.shapes_append, Literal.shapes, Literal.shapes,
        Literal.shapes, Literal.shapes, hl]
      exact h.literals.append (.refl _)
    have hroom : (c.literals ++ [l]).length ≤ maxLiterals := by
      rw [List.length_append]
      exact hlt
    exact .some (.mk ⟨⟨h.scope, hliterals, hroom, h.globals, h.serial, h.positive, h.ids⟩,
      List.prefix_append _ _,
      List.prefix_append _ _⟩ ⟨List.getElem?_concat_length, List.getElem?_concat_length⟩)
  · exact .none _

/-- The index of a text is that of a literal with this text. -/
theorem indexOfString?_some {ls : List Literal} {i : Nat}
    (h : Literal.indexOfString? ls x = some i) :
    ls[i]? = some (.string x) := by
  obtain ⟨hlt, hp, -⟩ := List.findIdx?_eq_some_iff_getElem.mp h
  rw [List.getElem?_eq_getElem hlt]
  cases hl : ls[i] with
  | string y =>
    rw [hl] at hp
    rw [beq_iff_eq.mp hp]
  | int | float | function =>
    rw [hl] at hp
    cases hp

/-- A text without an index is not among the literals. -/
theorem indexOfString?_none {ls : List Literal} (h : Literal.indexOfString? ls x = none) :
    .string x ∉ ls := by
  intro hx
  have hfalse := List.findIdx?_eq_none_iff.mp h _ hx
  rw [Literal.isString, beq_self_eq_true] at hfalse
  cases hfalse

/-- The name of a global.  If only the second context has to add it, it is among the additional
literals of the first. -/
theorem nameLiteral? (h : Parallel ρ ρ' k c c') (x : String) :
    Accompanies (Yields ρ ρ' k (Found (.string x) (.string x)) c c') (c.nameLiteral? x)
      (c'.nameLiteral? x) := by
  have hshape : Literal.shape ρ (.string x) = Literal.shape ρ' (.string x) := rfl
  rw [Context.nameLiteral?, Context.nameLiteral?]
  cases hi : Literal.indexOfString? c.literals x with
  | none =>
    cases hi' : Literal.indexOfString? c'.literals x with
    | none => exact h.addLiteral? hshape
    | some i' =>
      -- what the second has the first has, too
      have hmem := List.mem_of_getElem? (indexOfString?_some hi')
      have hsub := h.literals.subset (Literal.string_mem_shapes.mpr hmem)
      exact absurd (Literal.string_mem_shapes.mp hsub) (indexOfString?_none hi)
  | some i =>
    have hfound := indexOfString?_some hi
    cases hi' : Literal.indexOfString? c'.literals x with
    | some i' => exact .some (.mk (.refl h) ⟨hfound, indexOfString?_some hi'⟩)
    | none =>
      have hnew : Shape.string x ∉ Literal.shapes ρ' c'.literals := fun hx =>
        indexOfString?_none hi' (Literal.string_mem_shapes.mp hx)
      have hold : Shape.string x ∈ Literal.shapes ρ c.literals :=
        Literal.string_mem_shapes.mpr (List.mem_of_getElem? hfound)
      have hcons := List.cons_subperm_of_not_mem_of_mem hnew hold h.literals
      have hliterals : (Literal.shapes ρ' (c'.literals ++ [.string x])).Subperm
        (Literal.shapes ρ c.literals) := by
        rw [Literal.shapes_append]
        exact (List.perm_append_singleton _ _).subperm.trans hcons
      have hlt : c'.literals.length < maxLiterals := by
        have hlength := hcons.length_le
        rw [List.length_cons, Literal.length_shapes, Literal.length_shapes] at hlength
        exact Nat.le_trans hlength h.room
      obtain ⟨strings', hs'⟩ := c'.noteString_eq (.string x)
      dsimp only
      rw [Context.addLiteral?, if_pos hlt, hs']
      exact .some (.mk ⟨⟨h.scope, hliterals, h.room, h.globals, h.serial, h.positive, h.ids⟩,
        List.prefix_rfl, List.prefix_append _ _⟩ ⟨hfound, List.getElem?_concat_length⟩)

/-- Both scopes may be replaced by the same one. -/
theorem withScope (h : Parallel ρ ρ' k c c') (s : Scope) :
    Onward ρ ρ' k c c' { c with scope := s } { c' with scope := s } :=
  ⟨⟨rfl, h.literals, h.room, h.globals, h.serial, h.positive, h.ids⟩, List.prefix_rfl,
    List.prefix_rfl⟩

/-- A global may become known on both sides. -/
theorem addGlobal (h : Parallel ρ ρ' k c c') (x : String) :
    Onward ρ ρ' k c c' (c.addGlobal x) (c'.addGlobal x) := by
  refine ⟨⟨h.scope, h.literals, h.room, fun y => ?_, h.serial, h.positive, h.ids⟩, List.prefix_rfl,
    List.prefix_rfl⟩
  rw [Context.addGlobal, Context.addGlobal]
  simp only [List.mem_insert_iff, h.globals]

/-- A name is the same local, or the same global, on both sides. -/
theorem resolve? (h : Parallel ρ ρ' k c c') (x : String) :
    Accompanies (Yields ρ ρ' k SameVariable c c') (c.resolve? x) (c'.resolve? x) := by
  rw [Context.resolve?, Context.resolve?, h.scope]
  split
  · exact .none _
  · split
    · exact .some (.mk (.refl h) (.slot x _))
    · exact .none _
    · by_cases hx : x ∈ c.globals
      · rw [if_pos (List.contains_iff_mem.mpr hx),
          if_pos (List.contains_iff_mem.mpr ((h.globals x).mpr hx))]
        exact Yields.map (h.nameLiteral? x) fun _ _ _ _ hd hfound => .mk hd (.global hfound)
      · rw [if_neg fun hcontains => hx (List.contains_iff_mem.mp hcontains)]
        exact .none _

/-- A name can be declared on both sides, or on neither, as long as the scopes are the same. -/
theorem declare? (h : Parallel ρ ρ' k c c') (x : String) :
    Accompanies (Onward ρ ρ' k c c') (c.declare? x) (c'.declare? x) := by
  rw [Context.declare?, Context.declare?, h.scope]
  split
  · exact .some (.refl h)
  · split
    · exact .none _
    · have hadd : Accompanies Eq (c.scope.add? x) (c.scope.add? x) := fun s hs => ⟨s, hs, rfl⟩
      refine hadd.map fun s t hst => ?_
      subst hst
      exact h.withScope s

theorem settle (h : Parallel ρ ρ' k c c') : Onward ρ ρ' k c c' c.settle c'.settle := by
  rw [Context.settle, Context.settle, h.scope]
  split
  · exact .refl h
  · exact h.withScope _

theorem declareSettled? (h : Parallel ρ ρ' k c c') (x : String) :
    Accompanies (Onward ρ ρ' k c c') (c.declareSettled? x) (c'.declareSettled? x) :=
  (h.declare? x).map fun _ _ hd => hd.trans hd.parallel.settle

/-- The parameters of a function are declared on both sides. -/
theorem declareAll? (h : Parallel ρ ρ' k c c') (xs : List String) :
    Accompanies (Onward ρ ρ' k c c') (declareAll? xs c) (declareAll? xs c') := by
  induction xs generalizing c c' with
  | nil => exact .some (.refl h)
  | cons x xs ih =>
    refine (h.declareSettled? x).bind fun d d' _ hd => ?_
    intro e he
    obtain ⟨e', he', hde⟩ := ih hd.parallel e he
    exact ⟨e', he', hd.trans hde⟩

/-- A definition gives the same variable on both sides. -/
theorem define? (h : Parallel ρ ρ' k c c') (x : String) :
    Accompanies (Yields ρ ρ' k SameVariable c c') (c.define? x) (c'.define? x) := by
  rw [Context.define?, Context.define?, h.scope]
  split
  · exact Yields.map (h.nameLiteral? x) fun _ _ _ _ hd hfound =>
      .mk (hd.trans (hd.parallel.addGlobal x)) (.global hfound)
  · exact .some (.mk h.settle (.slot x _))

theorem declareFunction? (h : Parallel ρ ρ' k c c') (x : String) :
    Accompanies (Onward ρ ρ' k c c') (c.declareFunction? x) (c'.declareFunction? x) := by
  rw [Context.declareFunction?, Context.declareFunction?, h.scope]
  split
  · exact .some (h.addGlobal x)
  · exact h.declareSettled? x

theorem openFunction (h : Parallel ρ ρ' k c c') : Parallel ρ ρ' k c.openFunction c'.openFunction :=
  ⟨rfl, .refl _, Nat.zero_le _, h.globals, h.serial, h.positive, h.ids⟩

/-- A function that does the same, at the end of its body, whose context is `c`; the context around
it is `d`. -/
theorem closeFunction? (h : Parallel ρ ρ' k c c') (houter : Parallel ρ ρ' k d d') {f f' : Function}
    (hf : f.shape ρ = f'.shape ρ') :
    Accompanies (Yields ρ ρ' k (Found (.function f) (.function f')) d d') (c.closeFunction? d f)
      (c'.closeFunction? d' f') := by
  have hclosed : Parallel ρ ρ' k
      { c with scope := d.scope, literals := d.literals, serial := c.serial + 1 }
      { c' with scope := d'.scope, literals := d'.literals, serial := c'.serial + 1 } := by
    refine ⟨houter.scope, houter.literals, houter.room, h.globals, ?_, Nat.succ_pos _, h.ids⟩
    show c.serial + 1 = c'.serial + 1 + k
    rw [h.serial, Nat.add_right_comm]
  have hon : Onward ρ ρ' k d d'
      { c with scope := d.scope, literals := d.literals, serial := c.serial + 1 }
      { c' with scope := d'.scope, literals := d'.literals, serial := c'.serial + 1 } :=
    ⟨hclosed, List.prefix_rfl, List.prefix_rfl⟩
  exact Yields.after hon (hclosed.addLiteral? hf)

end Parallel

/-- An instruction that names a global. -/
theorem Found.naming {ls ls' : List Literal} {i i' : Nat}
    (h : Found (.string x) (.string x) ls ls' i i')
    (instruction : Instruction) (hindex : ∀ i, (instruction.naming i).literal? = some i)
    (line line' : Nat) :
    SameCode ρ ρ' ls ls' [⟨instruction.naming i, line⟩] [⟨instruction.naming i', line'⟩] := by
  have hshape : Literal.shape ρ (.string x) = Literal.shape ρ' (.string x) := rfl
  exact .naming hindex h.1 h.2 hshape line line'

namespace SameVariable

variable {ls ls' : List Literal} {v v' : Variable}

/-- The same variable is read by the same code, but for the index of its name. -/
theorem getter (h : SameVariable ls ls' v v') (line line' : Nat) :
    SameCode ρ ρ' ls ls' [⟨v.place.getter, line⟩] [⟨v'.place.getter, line'⟩] := by
  cases h with
  | slot => exact .plain rfl line line'
  | global hfound => exact hfound.naming (.getGlobal 0) (fun _ => rfl) line line'

theorem setter (h : SameVariable ls ls' v v') (line line' : Nat) :
    SameCode ρ ρ' ls ls' [⟨v.place.setter, line⟩] [⟨v'.place.setter, line'⟩] := by
  cases h with
  | slot => exact .plain rfl line line'
  | global hfound => exact hfound.naming (.setGlobal 0) (fun _ => rfl) line line'

theorem memberSetter (h : SameVariable ls ls' v v') (m : Member) (line line' : Nat) :
    SameCode ρ ρ' ls ls' [⟨v.place.memberSetter m, line⟩] [⟨v'.place.memberSetter m, line'⟩] := by
  cases h with
  | slot => exact .plain rfl line line'
  | global hfound => exact hfound.naming (.setGlobalMember 0 m) (fun _ => rfl) line line'

/-- The end of a declaration is the same for the same variable. -/
theorem definer (h : SameVariable ls ls' v v') (line line' : Nat) :
    SameCode ρ ρ' ls ls' (placeOn line v.place.definer) (placeOn line' v'.place.definer) := by
  cases h with
  | slot => exact .nil
  | global hfound => exact hfound.naming (.defineGlobal 0) (fun _ => rfl) line line'

end SameVariable

end Context

/-! ## Expressions -/

open Context

variable {f : Nat → Nat} {c c' : Context}

/-- A number has the same literal on both sides, on the other line. -/
theorem Context.Parallel.number? (h : Parallel ρ ρ' k c c') (text : String) (line : Nat) :
    Accompanies (Yields ρ ρ' k (SameTree ρ ρ' Expr.postorder) c c') (c.number? text line)
      (c'.number? text (f line)) := by
  rw [Context.number?, Context.number?]
  split
  · next n _ =>
    have hshape : Literal.shape ρ (.int n) = Literal.shape ρ' (.int n) := rfl
    exact Yields.map (h.addLiteral? hshape) fun _ _ _ _ hd hfound =>
      .mk hd (.literal hfound.1 hfound.2 hshape line (f line))
  · next bits _ =>
    have hshape : Literal.shape ρ (.float bits) = Literal.shape ρ' (.float bits) := rfl
    exact Yields.map (h.addLiteral? hshape) fun _ _ _ _ hd hfound =>
      .mk hd (.literal hfound.1 hfound.2 hshape line (f line))
  · exact .none _

/-- Trees of arguments with the same code, as many of them. -/
def Context.SameTrees (ρ ρ' : FunctionId → FunctionId) (ls ls' : List Literal)
    (ts ts' : List Expr) : Prop :=
  ts'.length = ts.length ∧ SameCode ρ ρ' ls ls' (Expr.postorderAll ts) (Expr.postorderAll ts')

theorem BinaryOp.literal?_eq_none (op : BinaryOp) :
    ∀ instruction ∈ op.instructions, instruction.literal? = none := by
  cases op <;> decide

mutual

/-- An expression has the same code in both contexts. -/
theorem Term.elaborate_parallel {c c' : Context} (head : Bool) (e : Term)
    (h : Parallel ρ ρ' k c c') :
    Accompanies (Yields ρ ρ' k (SameTree ρ ρ' Expr.postorder) c c') (e.elaborate head c)
      ((e.relined f).elaborate head c') := by
  cases e with
  | nil line =>
    rw [Term.relined, Term.elaborate, Term.elaborate]
    exact .some (.mk (.refl h) (.plain rfl line (f line)))
  | bool b line =>
    rw [Term.relined, Term.elaborate, Term.elaborate]
    have hplain : (if b then Instruction.yes else .no).literal? = none := by cases b <;> rfl
    exact .some (.mk (.refl h) (.plain hplain line (f line)))
  | number text line =>
    rw [Term.relined, Term.elaborate, Term.elaborate]
    exact h.number? text line
  | string text line =>
    rw [Term.relined, Term.elaborate, Term.elaborate]
    have hshape : Literal.shape ρ (.string (unquote text)) =
      Literal.shape ρ' (.string (unquote text)) := rfl
    exact Yields.bind (h.addLiteral? hshape) fun _ _ _ _ hd hfound =>
      .some (.mk hd (.literal hfound.1 hfound.2 hshape line (f line)))
  | name x line =>
    rw [Term.relined, Term.elaborate, Term.elaborate]
    exact Yields.bind (h.resolve? x) fun _ _ _ _ hd hv => .some (.mk hd (hv.getter line (f line)))
  | assign x value =>
    rw [Term.relined, Term.elaborate, Term.elaborate]
    refine Yields.bind (h.resolve? x) fun v v' _ _ hd hv =>
      Yields.bind (value.elaborate_parallel true hd.parallel) fun _ _ _ _ he ht =>
        .some (.mk (hd.trans he) ?_)
    exact ht.append ((hv.mono he.grown he.grown').setter _ _)
  | assignMember x m value =>
    rw [Term.relined, Term.elaborate, Term.elaborate]
    refine Yields.bind (h.resolve? x) fun v v' _ _ hd hv => .same (Member.ofName? m) fun member =>
      Yields.bind (value.elaborate_parallel true hd.parallel) fun _ _ _ _ he ht =>
        .some (.mk (hd.trans he) ?_)
    exact ht.append ((hv.mono he.grown he.grown').memberSetter member _ _)
  | group e line =>
    rw [Term.relined, Term.elaborate, Term.elaborate]
    exact e.elaborate_parallel true h
  | member e m line =>
    -- at the head of an expression, a member of a name has a rule of its own
    by_cases hhead : head = true ∧ e.isName = true
    · obtain ⟨rfl, hname⟩ := hhead
      cases e with
      | name x l =>
        rw [Term.relined, Term.relined, Term.elaborate, Term.elaborate]
        exact Yields.bind (h.resolve? x) fun _ _ _ _ hd hv => .same (Member.ofName? m) fun member =>
          .some (.mk hd ((hv.getter line (f line)).append (.plain rfl line (f line))))
      | nil | bool | number | string | assign | assignMember | group | member | unary | binary
      | call =>
        cases hname
    · have hplain : head = true → e.isName = false := by simpa using hhead
      rw [Term.relined, Term.elaborate_member _ _ _ hplain,
        Term.elaborate_member _ _ _ fun hhead => (e.isName_relined (f := f)).trans (hplain hhead)]
      exact Yields.bind (e.elaborate_parallel head h) fun _ _ _ _ hd ht =>
        .same (Member.ofName? m) fun member =>
        .some (.mk hd (ht.append (.plain rfl line (f line))))
  | unary op e =>
    rw [Term.relined, Term.elaborate, Term.elaborate]
    have hplain : op.instruction.literal? = none := by cases op <;> rfl
    exact Yields.bind (e.elaborate_parallel false h) fun _ _ _ _ hd ht =>
      .some (.mk hd (ht.append (.plain hplain _ _)))
  | binary op lhs rhs =>
    rw [Term.relined, Term.elaborate, Term.elaborate]
    refine Yields.bind (lhs.elaborate_parallel head h) fun _ _ _ _ hd ht =>
      Yields.bind (rhs.elaborate_parallel false hd.parallel) fun _ _ _ _ he hu =>
        .some (.mk (hd.trans he) ?_)
    exact ((ht.mono he.grown he.grown').append hu).append (.onLine op.literal?_eq_none _ _)
  | call callee arguments line =>
    rw [Term.relined, Term.elaborate, Term.elaborate, Term.length_relinedAll]
    refine Yields.bind (callee.elaborate_parallel head h) fun _ _ _ _ hd ht =>
      Yields.bind (Term.elaborateAll_parallel arguments hd.parallel) fun ts ts' e e' he hts =>
      .same (guard _) fun _ => .some (.mk (hd.trans he) ?_)
    have hcall : SameCode ρ ρ' e.literals e'.literals [⟨.call (min ts.length maxArguments), line⟩]
        [⟨.call (min ts'.length maxArguments), f line⟩] := by
      rw [hts.1]
      exact .plain rfl line (f line)
    exact ((ht.mono he.grown he.grown').append hts.2).append hcall

/-- Several expressions are resolved to trees with the same code. -/
theorem Term.elaborateAll_parallel {c c' : Context} (es : List Term) (h : Parallel ρ ρ' k c c') :
    Accompanies (Yields ρ ρ' k (SameTrees ρ ρ') c c') (Term.elaborateAll es c)
      (Term.elaborateAll (Term.relinedAll f es) c') := by
  cases es with
  | nil =>
    rw [Term.relinedAll, Term.elaborateAll, Term.elaborateAll]
    exact .some (.mk (.refl h) ⟨rfl, .nil⟩)
  | cons e es =>
    rw [Term.relinedAll, Term.elaborateAll, Term.elaborateAll]
    refine Yields.bind (e.elaborate_parallel true h) fun _ _ _ _ hd ht =>
      Yields.bind (Term.elaborateAll_parallel es hd.parallel) fun ts ts' _ _ he hts =>
        .some (.mk (hd.trans he) ?_)
    exact ⟨congrArg (· + 1) hts.1, (ht.mono he.grown he.grown').append hts.2⟩

end

theorem Context.Parallel.value? (h : Parallel ρ ρ' k c c') (line : Nat) (value : Option Term) :
    Accompanies (Yields ρ ρ' k (SameTree ρ ρ' Expr.postorder) c c') (c.value? line value)
      (c'.value? (f line) (value.map (Term.relined f))) := by
  cases value with
  | none => exact .some (.mk (.refl h) (.plain rfl line (f line)))
  | some e => exact e.elaborate_parallel true h

/-! ## Statements -/

/-- A condition, the jump over the body, the body, and what comes after it. -/
theorem SameCode.branch {ls ls' : List Literal} {cond cond' body body' rest rest' : List Placed}
    (hcond : SameCode ρ ρ' ls ls' cond cond') (hbody : SameCode ρ ρ' ls ls' body body')
    (hrest : SameCode ρ ρ' ls ls' rest rest') (line line' : Nat) :
    SameCode ρ ρ' ls ls'
      (cond ++ [⟨.jumpIfFalse (body.length + 2), line⟩, ⟨.pop, line⟩] ++ body ++ rest)
      (cond' ++ [⟨.jumpIfFalse (body'.length + 2), line'⟩, ⟨.pop, line'⟩] ++ body' ++ rest') := by
  have hskip : SameCode ρ ρ' ls ls' (placeOn line [.jumpIfFalse (body.length + 2), .pop])
      (placeOn line' [.jumpIfFalse (body'.length + 2), .pop]) := by
    rw [hbody.length_eq]
    exact .onLine (by simp [Instruction.literal?]) line line'
  exact ((hcond.append hskip).append hbody).append hrest

/-! What the code of a conditional or a loop has from its parts: the offsets of its jumps are
lengths of parts, which are equal on both sides. -/

section

variable {ls ls' : List Literal} {t t' : Expr} {b b' o o' : Stmt}

/-- A conditional has the same code if its condition and its body have. -/
theorem SameCode.ifThen (ht : SameTree ρ ρ' Expr.postorder ls ls' t t')
    (hb : SameTree ρ ρ' Stmt.postorder ls ls' b b') (line last line' last' : Nat) :
    SameTree ρ ρ' Stmt.postorder ls ls' (.ifThen t b line last) (.ifThen t' b' line' last') :=
  .branch ht hb (@SameCode.onLine _ _ _ _ [.jump 1, .pop] (by decide) _ _) line line'

/-- The code of a conditional with two branches jumps over each of them. -/
theorem SameCode.ifElse (ht : SameTree ρ ρ' Expr.postorder ls ls' t t')
    (hb : SameTree ρ ρ' Stmt.postorder ls ls' b b') (ho : SameTree ρ ρ' Stmt.postorder ls ls' o o')
    (line last line' last' : Nat) :
    SameTree ρ ρ' Stmt.postorder ls ls' (.ifElse t b o line last)
      (.ifElse t' b' o' line' last') := by
  have hout : SameCode ρ ρ' ls ls' (placeOn last [.jump (o.postorder.length + 1), .pop])
      (placeOn last' [.jump (o'.postorder.length + 1), .pop]) := by
    have hlength : o'.postorder.length = o.postorder.length := ho.length_eq
    rw [hlength]
    exact .onLine (by simp [Instruction.literal?]) _ _
  have hall := SameCode.branch ht hb (hout.append ho) line line'
  rw [← List.append_assoc, ← List.append_assoc] at hall
  exact hall

/-- A loop has the same code if its condition and its body have. -/
theorem SameCode.loop (ht : SameTree ρ ρ' Expr.postorder ls ls' t t')
    (hb : SameTree ρ ρ' Stmt.postorder ls ls' b b') (line last line' last' : Nat) :
    SameTree ρ ρ' Stmt.postorder ls ls' (.loop t b line last) (.loop t' b' line' last') := by
  have hback : SameCode ρ ρ' ls ls'
      (placeOn last [.loop (t.postorder.length + b.postorder.length + 3), .pop])
      (placeOn last' [.loop (t'.postorder.length + b'.postorder.length + 3), .pop]) := by
    have hlength : t'.postorder.length = t.postorder.length := ht.length_eq
    have hlength' : b'.postorder.length = b.postorder.length := hb.length_eq
    rw [hlength, hlength']
    exact .onLine (by simp [Instruction.literal?]) _ _
  exact .branch ht hb hback line line'

end

mutual

/-- A statement or a declaration has the same code in both contexts. -/
theorem Clause.elaborate_parallel {c c' : Context} (s : Clause) (h : Parallel ρ ρ' k c c') :
    Accompanies (Yields ρ ρ' k (SameTree ρ ρ' Stmt.postorder) c c') (s.elaborate c)
      ((s.relined f k).elaborate c') := by
  cases s with
  | expr e line =>
    rw [Clause.relined, Clause.elaborate, Clause.elaborate]
    exact Yields.bind (e.elaborate_parallel true h) fun _ _ _ _ hd ht =>
      .some (.mk hd (ht.append (.plain rfl line (f line))))
  | print e line =>
    rw [Clause.relined, Clause.elaborate, Clause.elaborate]
    exact Yields.bind (e.elaborate_parallel true h) fun _ _ _ _ hd ht =>
      .some (.mk hd (ht.append (.plain rfl line (f line))))
  | declare x nameLine init line =>
    rw [Clause.relined, Clause.elaborate, Clause.elaborate]
    refine (h.declare? x).bind fun d d' _ hd =>
      Yields.bind (hd.parallel.value? nameLine init) fun _ _ e e' he ht =>
      Yields.bind (he.parallel.define? x) fun _ _ _ _ hg hv =>
        .some (.mk ((hd.trans he).trans hg) ?_)
    exact (ht.mono hg.grown hg.grown').append (hv.definer line (f line))
  | function site x parameters body line =>
    rw [Clause.relined, Clause.elaborate, Clause.elaborate]
    refine (h.declareFunction? x).bind fun outer outer' _ houter =>
      .same (guard _) fun _ => (houter.parallel.openFunction.declareAll? parameters).bind
        fun d d' _ hd =>
      Yields.bind (Clause.elaborateAll_parallel body .nil hd.parallel)
        fun b b' inner inner' hinner hb => ?_
    have hserial := hinner.parallel.serial
    refine Accompanies.bind (.guard fun hsite => ?_) fun _ _ hsite _ => ?_
    · omega
    · -- the number of the function in its own compilation
      have hsite : site = inner.serial := (Option.guard_eq_some' _).mp hsite
      have hpositive := hinner.parallel.positive
      have hid : ρ ⟨inner.unit, site⟩ = ρ' ⟨inner'.unit, site - k⟩ := by
        rw [hinner.parallel.ids _ (by omega), Nat.sub_add_cancel (by omega)]
      refine Yields.bind (hinner.parallel.closeFunction? houter.parallel
        (SameCode.ofBody hid hb (some x) parameters.length line (f line))) fun _ _ _ _ hg hfound =>
        ?_
      refine Yields.bind (hg.parallel.define? x) fun _ _ _ _ hj hv =>
        .some (.mk ((houter.trans hg).trans hj) ?_)
      obtain ⟨hindex, hindex'⟩ := hfound.mono hj.grown hj.grown'
      exact (SameCode.literal hindex hindex'
        (SameCode.ofBody hid hb (some x) parameters.length line (f line)) line
        (f line)).append (hv.definer line (f line))
  | ifThen cond line body =>
    rw [Clause.relined, Clause.elaborate, Clause.elaborate, Clause.lastLine_relined]
    refine Yields.bind (cond.elaborate_parallel true h) fun t t' _ _ hd ht =>
      Yields.bind (body.elaborate_parallel hd.parallel) fun b b' _ _ he hb => ?_
    have hlength : b'.postorder.length = b.postorder.length := hb.length_eq
    exact Accompanies.bind (.guard (by rw [hlength]; exact id)) fun _ _ _ _ =>
      .some (.mk (hd.trans he) (.ifThen (ht.mono he.grown he.grown') hb line _ (f line) _))
  | ifElse cond line body other =>
    rw [Clause.relined, Clause.elaborate, Clause.elaborate, Clause.lastLine_relined]
    refine Yields.bind (cond.elaborate_parallel true h) fun t t' _ _ hd ht =>
      Yields.bind (body.elaborate_parallel hd.parallel) fun b b' _ _ he hb => ?_
    have hlength : b'.postorder.length = b.postorder.length := hb.length_eq
    refine Accompanies.bind (.guard (by rw [hlength]; exact id)) fun _ _ _ _ =>
      Yields.bind (other.elaborate_parallel he.parallel) fun o o' g g' hg ho => ?_
    have hlength' : o'.postorder.length = o.postorder.length := ho.length_eq
    have heg := he.trans hg
    exact Accompanies.bind (.guard (by rw [hlength']; exact id)) fun _ _ _ _ =>
      .some (.mk (hd.trans heg) (.ifElse (ht.mono heg.grown heg.grown') (hb.mono hg.grown hg.grown')
        ho line _ (f line) _))
  | loop cond line body =>
    rw [Clause.relined, Clause.elaborate, Clause.elaborate, Clause.lastLine_relined]
    refine Yields.bind (cond.elaborate_parallel true h) fun t t' _ _ hd ht =>
      Yields.bind (body.elaborate_parallel hd.parallel) fun b b' e e' he hb => ?_
    have hlength : b'.postorder.length = b.postorder.length := hb.length_eq
    have hlength' : t'.postorder.length = t.postorder.length := ht.length_eq
    exact Accompanies.bind (.guard (by rw [hlength, hlength']; exact id)) fun _ _ _ _ =>
      .some (.mk (hd.trans he) (.loop (ht.mono he.grown he.grown') hb line _ (f line) _))
  | ret value line =>
    rw [Clause.relined, Clause.elaborate, Clause.elaborate]
    exact Yields.bind (h.value? line value) fun _ _ _ _ hd ht =>
      .some (.mk hd (ht.append (.plain rfl line (f line))))
  | yield line =>
    rw [Clause.relined, Clause.elaborate, Clause.elaborate]
    exact .some (.mk (.refl h) (.plain rfl line (f line)))
  | stop line =>
    rw [Clause.relined, Clause.elaborate, Clause.elaborate]
    exact .some (.mk (.refl h) (.plain rfl line (f line)))
  | block body line =>
    rw [Clause.relined, Clause.elaborate, Clause.elaborate]
    -- only the scopes change at the two ends of a block, and they are the same on both sides
    have henter : Onward ρ ρ' k c c' c.enter c'.enter := by
      rw [Context.enter, Context.enter, h.scope]
      exact h.withScope _
    refine Yields.bind (Clause.elaborateAll_parallel body .nil henter.parallel)
      fun b b' d d' hd hb => ?_
    have hleave : Onward ρ ρ' k d d' d.leave d'.leave := by
      rw [Context.leave, Context.leave, hd.parallel.scope]
      exact hd.parallel.withScope _
    refine .some (.mk ((henter.trans hd).trans hleave) ?_)
    rw [hd.parallel.scope]
    exact hb.append (.replicate rfl _ line (f line))

/-- Statements and declarations have the same code in both contexts. -/
theorem Clause.elaborateAll_parallel {c c' : Context} (ss : List Clause) {read read' : Block}
    (hread : SameTree ρ ρ' Block.postorder c.literals c'.literals read read')
    (h : Parallel ρ ρ' k c c') :
    Accompanies (Yields ρ ρ' k (SameTree ρ ρ' Block.postorder) c c') (Clause.elaborateAll ss read c)
      (Clause.elaborateAll (Clause.relinedAll f k ss) read' c') := by
  cases ss with
  | nil =>
    rw [Clause.relinedAll, Clause.elaborateAll, Clause.elaborateAll]
    exact .some (.mk (.refl h) hread)
  | cons s ss =>
    rw [Clause.relinedAll, Clause.elaborateAll, Clause.elaborateAll]
    refine Yields.bind (s.elaborate_parallel h) fun t t' d d' hd ht => ?_
    have hread' : SameTree ρ ρ' Block.postorder d.literals d'.literals (read.append t)
      (read'.append t') :=
      (hread.mono hd.grown hd.grown').append ht
    exact Yields.after hd (Clause.elaborateAll_parallel ss hread' hd.parallel)

end

end

end EntityScript
