/-
# What scripts know of globals

A name that stands for a global has been declared: by the host, or by the script above the place
where the name stands.  The code of a script is therefore in order (`Spells.orders`): outside all
blocks declarations define globals one after the other, and everywhere else nothing is defined and
only what is known is needed.
-/
import EntityScript.Proofs.Code.Globals
import EntityScript.Proofs.Script.Grammar
import EntityScript.Proofs.Script.Resolution

namespace EntityScript

open Context

namespace Context

/-- Between two contexts some quiet code has been read. -/
structure Settles (c c' : Context) (code : List Placed) : Prop where
  globals : c'.globals = c.globals
  depth : c'.scope.depth = c.scope.depth
  literals : ∃ more, c'.literals = c.literals ++ more ∧
    ∀ f, .function f ∈ more → f.Within (· ∈ c.globals)
  quiet : Quiet c'.literals (· ∈ c.globals) code

/-- Between two contexts outside all blocks some code has been read that may define globals. -/
structure Proceeds (c c' : Context) (code : List Placed) : Prop where
  globals : ∀ x ∈ c'.globals, x ∈ c.globals ∨ Defines c'.literals code x
  grows : ∀ x ∈ c.globals, x ∈ c'.globals
  depth : c'.scope.depth = c.scope.depth
  literals : ∃ more, c'.literals = c.literals ++ more
  ordered : InOrder c'.literals (· ∈ c.globals) code

section

variable {c c' d : Context} {a b : List Placed} {more : List Literal} {x : String}

theorem Settles.refl (c : Context) : Settles c c [] :=
  ⟨rfl, rfl, ⟨[], (List.append_nil _).symm, fun _ h => absurd h List.not_mem_nil⟩, quiet_nil⟩

/-- Quiet code in two parts. -/
theorem Settles.trans (h : Settles c d a) (k : Settles d c' b) : Settles c c' (a ++ b) := by
  obtain ⟨ls, hls, hwithin⟩ := h.literals
  obtain ⟨ms, hms, hwithin'⟩ := k.literals
  have hglobals : (· ∈ d.globals) = (· ∈ c.globals) := by rw [h.globals]
  refine ⟨k.globals.trans h.globals, k.depth.trans h.depth, ⟨ls ++ ms, ?_, fun f hf => ?_⟩, ?_⟩
  · rw [hms, hls, List.append_assoc]
  · rcases List.mem_append.mp hf with hf | hf
    · exact hwithin f hf
    · exact hglobals ▸ hwithin' f hf
  · rw [hms]
    exact (h.quiet.literals ms).append (hms ▸ hglobals ▸ k.quiet)

/-- Literals that are there stay where they are. -/
theorem Settles.getElem? (h : Settles c c' a) {i : Nat} {l : Literal}
    (hl : c.literals[i]? = some l) :
    c'.literals[i]? = some l := by
  obtain ⟨more, hmore, -⟩ := h.literals
  rw [hmore]
  exact getElem?_append_of_some hl

/-- Further quiet instructions. -/
theorem Settles.append (h : Settles c c' a) (hb : Quiet c'.literals (· ∈ c.globals) b) :
    Settles c c' (a ++ b) :=
  ⟨h.globals, h.depth, h.literals, h.quiet.append hb⟩

/-- Literals have been added, none of them a function. -/
theorem Adds.settles (h : Adds c c' more) (hglobals : c'.globals = c.globals)
    (ha : Quiet c'.literals (· ∈ c.globals) a) : Settles c c' a :=
  ⟨hglobals, by rw [h.scope], ⟨more, h.literals, fun f hf => by cases h.plain _ hf⟩, ha⟩

/-- Quiet code may be read where globals can be defined. -/
theorem Settles.proceeds (h : Settles c c' a) (hinward : Inward a) : Proceeds c c' a := by
  obtain ⟨more, hmore, -⟩ := h.literals
  exact ⟨fun x hx => .inl (h.globals ▸ hx), fun x hx => h.globals ▸ hx, h.depth, ⟨more, hmore⟩,
    h.quiet.inOrder hinward⟩

/-- Code in two parts, of which the second may use what the first has defined. -/
theorem Proceeds.trans (h : Proceeds c d a) (k : Proceeds d c' b) : Proceeds c c' (a ++ b) := by
  obtain ⟨ls, hls⟩ := h.literals
  obtain ⟨ms, hms⟩ := k.literals
  have hordered := h.ordered.literals ms
  rw [← hms] at hordered
  have hknown : ∀ x ∈ d.globals, x ∈ c.globals ∨ Defines c'.literals a x := by
    intro x hx
    rw [hms, defines_literals h.ordered.names]
    exact h.globals x hx
  refine ⟨fun x hx => ?_, fun x hx => k.grows x (h.grows x hx), k.depth.trans h.depth,
    ⟨ls ++ ms, by rw [hms, hls, List.append_assoc]⟩, hordered.append (k.ordered.mono hknown)⟩
  rw [defines_append, ← or_assoc]
  exact (k.globals x hx).imp_left (hknown x)

/-! ## Literals and names -/

theorem noteString_globals (c : Context) (l : Literal) : (c.noteString l).globals = c.globals := by
  cases l with
  | string s =>
    rw [noteString]
    split <;> rfl
  | int | float | function => rfl

theorem addLiteral?_globals {l : Literal} {i : Nat} (h : c.addLiteral? l = some (i, c')) :
    c'.globals = c.globals := by
  unfold addLiteral? at h
  split at h
  · obtain ⟨-, rfl⟩ := Prod.mk.inj (Option.some.inj h)
    exact c.noteString_globals l
  · cases h

/-- A literal for a name makes no global known. -/
theorem nameLiteral?_globals {i : Nat} (h : c.nameLiteral? x = some (i, c')) :
    c'.globals = c.globals := by
  unfold nameLiteral? at h
  split at h
  · obtain ⟨-, rfl⟩ := Prod.mk.inj (Option.some.inj h)
    rfl
  · exact addLiteral?_globals h

/-- What a variable stands for is known: a global has its name among the literals and among the
known ones. -/
theorem resolve?_knows {v : Variable} (h : c.resolve? x = some (v, c')) :
    c'.globals = c.globals ∧ ∃ more, Adds c c' more ∧ ∀ index, v.place = .global index →
      x ∈ c.globals ∧ c'.literals[index]? = some (.string x) := by
  cases Variable.derives_iff.mpr h with
  | slot => exact ⟨rfl, [], .refl c, fun index hplace => by cases hplace⟩
  | global _ _ hknown hl =>
    obtain ⟨more, hadds, hi⟩ := nameLiteral?_adds hl
    refine ⟨nameLiteral?_globals hl, more, hadds, fun index hplace => ?_⟩
    obtain rfl := Place.global.inj hplace
    exact ⟨hknown, hi⟩

end

end Context

/-! ## Instructions of expressions -/

section

variable {ls : List Literal} {known : String → Prop} {place : Place} {x : String}

/-- Loading a literal that is no function needs no global. -/
theorem quiet_literal {index : Nat} {l : Literal} (h : ls[index]? = some l)
    (hl : l.function? = none) :
    (Instruction.literal index).Quiet ls known := by
  refine ⟨⟨l, h⟩, rfl, fun _ _ hindex => (by cases hindex), fun index' f hindex hf => ?_⟩
  obtain rfl := Instruction.literal.inj hindex
  rw [h] at hf
  rw [Option.some.inj hf] at hl
  cases hl

/-- An instruction that reads or changes a known global. -/
theorem quiet_global {instruction : Instruction} {index : Nat}
    (hneeds : instruction.global? = some index) (hl : ls[index]? = some (.string x))
    (hx : known x) : instruction.Quiet ls known := by
  have hx' : ∀ i y, instruction.global? = some i → ls[i]? = some (.string y) → known y := by
    intro i y hi hy
    rw [hneeds] at hi
    obtain rfl := Option.some.inj hi
    rw [hl] at hy
    rwa [← Literal.string.inj (Option.some.inj hy)]
  cases instruction <;> cases hneeds <;>
    exact ⟨⟨x, hl⟩, rfl, hx', fun _ _ hindex => by cases hindex⟩

/-- An instruction that reads or changes a variable, whose name is known if it is a global. -/
theorem quiet_access {instruction : Instruction} (h : place.Access instruction)
    (hplace : ∀ index, place = .global index → known x ∧ ls[index]? = some (.string x)) :
    instruction.Quiet ls known := by
  cases place with
  | slot n => cases h <;> exact Instruction.quiet_of_plain (fun _ => trivial) rfl rfl
  | global index => cases h <;> exact quiet_global rfl (hplace index rfl).2 (hplace index rfl).1

end

/-- An instruction that has nothing to do with globals. -/
theorem quiet_plain {ls : List Literal} {known : String → Prop} {instruction : Instruction}
    {line : Nat} (hnames : ∀ ls, instruction.Names ls) (hdefines : instruction.definition? = none)
    (hneeds : instruction.global? = none) : Quiet ls known [⟨instruction, line⟩] :=
  quiet_singleton (Instruction.quiet_of_plain hnames hdefines hneeds)

/-- An operator needs no global. -/
theorem quiet_binary {ls : List Literal} {known : String → Prop} (op : BinaryOp) (line : Nat) :
    Quiet ls known (placeOn line op.instructions) := by
  cases op with
  | add | subtract | multiply | divide | equal | less | greater =>
    exact quiet_plain (fun _ => trivial) rfl rfl
  | notEqual | lessEqual | greaterEqual =>
    exact Quiet.append (a := [_]) (b := [_]) (quiet_plain (fun _ => trivial) rfl rfl)
      (quiet_plain (fun _ => trivial) rfl rfl)

/-! ## Expressions -/

mutual

/-- An expression needs only known globals. -/
theorem Term.elaborate_settles {c c' : Context} {head : Bool} {t : Expr} (e : Term)
    (h : e.elaborate head c = some (t, c')) : Settles c c' t.postorder := by
  match e, Term.derives_iff.mpr h with
  | _, .nil => exact (Settles.refl c).append (quiet_plain (fun _ => trivial) rfl rfl)
  | .bool b _, .bool =>
    cases b <;> exact (Settles.refl c).append (quiet_plain (fun _ => trivial) rfl rfl)
  | _, .int _ hl | _, .float _ hl | _, .string hl =>
    obtain ⟨hadds, hi⟩ := addLiteral?_adds hl rfl
    exact hadds.settles (addLiteral?_globals hl) (quiet_singleton (quiet_literal hi rfl))
  | _, .name hv =>
    obtain ⟨hglobals, ls, hadds, hplace⟩ := resolve?_knows hv
    exact hadds.settles hglobals (quiet_singleton (quiet_access .get hplace))
  | .assign _ value, .assign hv ht =>
    obtain ⟨hglobals, ls, hadds, hplace⟩ := resolve?_knows hv
    have hvalue := value.elaborate_settles ht
    have hplace' := fun index hindex => (hplace index hindex).imp_right hvalue.getElem?
    exact ((hadds.settles hglobals quiet_nil).trans hvalue).append
      (quiet_singleton (quiet_access .set hplace'))
  | .assignMember _ _ value, .assignMember hv _ ht =>
    obtain ⟨hglobals, ls, hadds, hplace⟩ := resolve?_knows hv
    have hvalue := value.elaborate_settles ht
    have hplace' := fun index hindex => (hplace index hindex).imp_right hvalue.getElem?
    exact ((hadds.settles hglobals quiet_nil).trans hvalue).append
      (quiet_singleton (quiet_access (.setMember _) hplace'))
  | .group e _, .group ht => exact e.elaborate_settles ht
  | _, .memberOfName hv _ =>
    obtain ⟨hglobals, ls, hadds, hplace⟩ := resolve?_knows hv
    exact (hadds.settles hglobals (quiet_singleton (quiet_access .get hplace))).append
      (quiet_plain (fun _ => trivial) rfl rfl)
  | .member e _ _, .member _ ht _ =>
    exact (e.elaborate_settles ht).append (quiet_plain (fun _ => trivial) rfl rfl)
  | .unary op e, .unary ht =>
    cases op <;> exact (e.elaborate_settles ht).append (quiet_plain (fun _ => trivial) rfl rfl)
  | .binary op lhs rhs, .binary hl hr =>
    exact ((lhs.elaborate_settles hl).trans (rhs.elaborate_settles hr)).append (quiet_binary op _)
  | .call callee arguments _, .call hf hts _ =>
    exact ((callee.elaborate_settles hf).trans (Term.elaborateAll_settles arguments hts)).append
      (quiet_plain (fun _ => trivial) rfl rfl)

/-- Several expressions need known globals only. -/
theorem Term.elaborateAll_settles {c c' : Context} {ts : List Expr} (es : List Term)
    (h : Term.elaborateAll es c = some (ts, c')) : Settles c c' (Expr.postorderAll ts) := by
  match es, Term.derivesAll_iff.mpr h with
  | _, .nil => exact .refl c
  | e :: es, .cons ht hts => exact (e.elaborate_settles ht).trans (Term.elaborateAll_settles es hts)

end

theorem Context.value?_settles {c c' : Context} {line : Nat} {init : Option Term} {t : Expr}
    (h : c.value? line init = some (t, c')) : Settles c c' t.postorder := by
  cases init with
  | none =>
    obtain ⟨rfl, rfl⟩ := Prod.mk.inj (Option.some.inj h)
    exact (Settles.refl c).append (quiet_plain (fun _ => trivial) rfl rfl)
  | some e => exact e.elaborate_settles h

/-! ## Declarations -/

namespace Context

variable {c c' d : Context} {x : String} {v : Variable}

/-- Contexts with the same literals and globals, and with as many open blocks. -/
theorem settles_of_eq (hglobals : c'.globals = c.globals) (hdepth : c'.scope.depth = c.scope.depth)
    (hliterals : c'.literals = c.literals) : Settles c c' [] :=
  ⟨hglobals, hdepth, ⟨[], by rw [hliterals, List.append_nil], fun _ h => absurd h List.not_mem_nil⟩,
    quiet_nil⟩

theorem declare?_settles (h : c.declare? x = some d) : Settles c d [] := by
  rcases declare?_spec h with ⟨-, rfl⟩ | ⟨-, rfl⟩
  · exact .refl d
  · exact settles_of_eq rfl rfl rfl

/-- In a block a declaration defines no global. -/
theorem define?_settles (hdepth : c.scope.depth ≠ 0) (h : c.define? x = some (v, d)) (line : Nat) :
    Settles c d (placeOn line v.place.definer) := by
  rcases define?_spec h with ⟨hdepth', -⟩ | ⟨-, rfl, rfl⟩
  · exact absurd hdepth' hdepth
  · refine settles_of_eq rfl ?_ rfl
    show c.scope.settle.depth = c.scope.depth
    rw [Scope.settle]
    split <;> rfl

/-- Outside all blocks a declaration defines a global, whose name is known from then on. -/
theorem define?_global (hdepth : c.scope.depth = 0) (h : c.define? x = some (v, d)) :
    ∃ index more, v.place = .global index ∧ d.literals = c.literals ++ more ∧
      (∀ l ∈ more, l.function? = none) ∧ d.literals[index]? = some (.string x) ∧
      d.globals = c.globals.insert x ∧ d.scope.depth = c.scope.depth := by
  rw [define?, if_pos hdepth] at h
  obtain ⟨⟨index, e⟩, he, hv⟩ := Option.map_eq_some_iff.mp h
  obtain ⟨rfl, rfl⟩ := Prod.mk.inj hv
  obtain ⟨more, hadds, hi⟩ := nameLiteral?_adds he
  refine ⟨index, more, rfl, hadds.literals, hadds.plain, hi, ?_, by rw [addGlobal, hadds.scope]⟩
  rw [addGlobal, nameLiteral?_globals he]

/-- Code that reads and changes no global. -/
theorem not_needs_of_plain {ls : List Literal} {code : List Placed}
    (h : ∀ p ∈ code, p.instruction.global? = none) (y : String) : ¬ Needs ls code y := by
  rintro ⟨p, hp, index, hindex, -⟩
  rw [h p hp] at hindex
  cases hindex

/-- Outside all blocks a definition defines the name that becomes known with it. -/
theorem define?_proceeds (hdepth : c.scope.depth = 0) (h : c.define? x = some (v, d)) (line : Nat) :
    Proceeds c d (placeOn line v.place.definer) := by
  obtain ⟨index, more, hplace, hliterals, -, hi, hglobals, hdepth'⟩ := define?_global hdepth h
  rw [hplace]
  refine ⟨fun y hy => ?_, fun y hy => ?_, hdepth', ⟨more, hliterals⟩,
    inOrder_of_straight ?_ ?_ ?_ ?_⟩
  · rw [hglobals] at hy
    rcases List.mem_insert_iff.mp hy with rfl | hy
    · exact .inr ⟨_, List.mem_cons_self, index, rfl, hi⟩
    · exact .inl hy
  · rw [hglobals]
    exact List.mem_insert_of_mem hy
  · exact straight_singleton rfl
  · intro p hp
    obtain rfl := List.mem_singleton.mp hp
    exact ⟨x, hi⟩
  · refine fun y hy => absurd hy (not_needs_of_plain (fun p hp => ?_) y)
    obtain rfl := List.mem_singleton.mp hp
    rfl
  · intro i p k f hp hk
    obtain rfl := List.mem_singleton.mp (List.mem_of_getElem? hp)
    cases hk

/-- The function made of a quiet body. -/
theorem within_ofBody {id : FunctionId} {name : Option String} {arity lastLine : Nat}
    {ls : List Literal} {body : Block} {known : String → Prop}
    (hbody : Quiet ls known body.postorder) (hinner : ∀ f, .function f ∈ ls → f.Within known) :
    (Function.ofBody id name arity ls body lastLine).Within known :=
  Quiet.within (f := .ofBody id name arity ls body lastLine)
    (hbody.append (Quiet.append (a := [_]) (b := [_]) (quiet_plain (fun _ => trivial) rfl rfl)
      (quiet_plain (fun _ => trivial) rfl rfl))) hinner

/-- A function that is closed needs only what was known in its body, and becomes a literal. -/
theorem closeFunction?_knows {inner outer : Context} {f : Function} {index : Nat}
    (h : inner.closeFunction? outer f = some (index, d)) :
    d.literals = outer.literals ++ [.function f] ∧ d.literals[index]? = some (.function f) ∧
      d.globals = inner.globals ∧ d.scope = outer.scope := by
  unfold closeFunction? at h
  obtain ⟨hls, hi, hscope, -, -⟩ := addLiteral?_spec h
  have hglobals := addLiteral?_globals h
  exact ⟨hls, hi, hglobals, hscope⟩

/-- In a block a function needs only what is known. -/
theorem settles_function {f : Function} {index line : Nat}
    (hliterals : d.literals = c.literals ++ [.function f])
    (hindex : d.literals[index]? = some (.function f)) (hglobals : d.globals = c.globals)
    (hdepth : d.scope.depth = c.scope.depth) (hwithin : f.Within (· ∈ c.globals)) :
    Settles c d [⟨.literal index, line⟩] := by
  refine ⟨hglobals, hdepth, ⟨_, hliterals, fun g hg => ?_⟩,
    quiet_singleton ⟨⟨_, hindex⟩, rfl, ?_, ?_⟩⟩
  · obtain rfl := Literal.function.inj (List.mem_singleton.mp hg)
    exact hwithin
  · exact fun _ _ h => by cases h
  · intro k g hk hg
    obtain rfl := Instruction.literal.inj hk
    rw [hindex] at hg
    obtain rfl := Literal.function.inj (Option.some.inj hg)
    exact hwithin

/-- Outside all blocks a function may also need itself: it gets its name right after it has been
made. -/
theorem proceeds_function {f : Function} {index line : Nat}
    (hliterals : d.literals = c.literals ++ [.function f])
    (hindex : d.literals[index]? = some (.function f)) (hglobals : d.globals = c.globals.insert x)
    (hscope : d.scope.depth = c.scope.depth) (hwithin : f.Within (· ∈ c.globals.insert x))
    (hdepth : c.scope.depth = 0) (hv : d.define? x = some (v, c')) :
    Proceeds c c' ([⟨.literal index, line⟩] ++ placeOn line v.place.definer) := by
  obtain ⟨place, more, hplace, hliterals', -, hplaced, hglobals', hdepth'⟩ :=
    define?_global (hscope.trans hdepth) hv
  rw [hplace]
  -- the code has two instructions: one makes the function, the other defines its name
  obtain ⟨code, hcode⟩ : ∃ code : List Placed,
    code = [⟨.literal index, line⟩, ⟨.defineGlobal place, line⟩] := ⟨_, rfl⟩
  show Proceeds c c' [⟨.literal index, line⟩, ⟨.defineGlobal place, line⟩]
  rw [← hcode]
  have hmem : ∀ p ∈ code, p = ⟨.literal index, line⟩ ∨ p = ⟨.defineGlobal place, line⟩ := by
    intro p hp
    rw [hcode] at hp
    exact (List.mem_cons.mp hp).imp_right List.mem_singleton.mp
  have hindex' : c'.literals[index]? = some (.function f) := by
    rw [hliterals']
    exact getElem?_append_of_some hindex
  -- what the function may use is known before, or is its own name
  have hknown : ∀ y ∈ c.globals.insert x, y ∈ c.globals ∨ Defines c'.literals code y := by
    intro y hy
    rcases List.mem_insert_iff.mp hy with rfl | hy
    · exact .inr ⟨_, hcode ▸ List.mem_cons_of_mem _ List.mem_cons_self, place, rfl, hplaced⟩
    · exact .inl hy
  rw [hglobals] at hglobals'
  refine ⟨fun y hy => ?_, fun y hy => ?_, hdepth'.trans hscope,
    ⟨_, by rw [hliterals', hliterals, List.append_assoc]⟩, inOrder_of_straight ?_ ?_ ?_ ?_⟩
  · rw [hglobals', List.insert_of_mem List.mem_insert_self] at hy
    exact hknown y hy
  · rw [hglobals']
    exact List.mem_insert_of_mem (List.mem_insert_of_mem hy)
  · intro p hp
    rcases hmem p hp with rfl | rfl <;> rfl
  · intro p hp
    rcases hmem p hp with rfl | rfl
    · exact ⟨_, hindex'⟩
    · exact ⟨x, hplaced⟩
  · refine fun y hy => absurd hy (not_needs_of_plain (fun p hp => ?_) y)
    rcases hmem p hp with rfl | rfl <;> rfl
  -- the function is made by the first instruction, when its name is as good as defined
  · intro i p k g hp hk hg
    rcases hmem p (List.mem_of_getElem? hp) with rfl | rfl
    · obtain rfl := Instruction.literal.inj hk
      rw [hindex'] at hg
      obtain rfl := Literal.function.inj (Option.some.inj hg)
      rw [List.take_of_length_le (by simp [hcode])]
      exact hwithin.mono hknown
    · cases hk

end Context

/-! ## Sentences -/

/-- What resolving a sentence says about globals. -/
def Sentence.Orders : Sentence → Prop
  | .statement s =>
    ∀ ⦃c c' : Context⦄ ⦃t : Stmt⦄, s.elaborate c = some (t, c') → Settles c c' t.postorder
  | .declaration s => ∀ ⦃c c' : Context⦄ ⦃t : Stmt⦄, s.elaborate c = some (t, c') →
      (c.scope.depth ≠ 0 → Settles c c' t.postorder) ∧
      (c.scope.depth = 0 → Proceeds c c' t.postorder)
  | .sequence ss =>
    ∀ ⦃c c' : Context⦄ ⦃read b : Block⦄, Clause.elaborateAll ss read c = some (b, c') →
      ∃ code, b.postorder = read.postorder ++ code ∧ (c.scope.depth ≠ 0 → Settles c c' code) ∧
        (c.scope.depth = 0 → Proceeds c c' code)

namespace Sentence

theorem quiet_condition {ls : List Literal} {known : String → Prop} (offset line : Nat) :
    Quiet ls known [⟨.jumpIfFalse offset, line⟩, ⟨.pop, line⟩] :=
  Quiet.append (a := [_]) (b := [_]) (quiet_plain (fun _ => trivial) rfl rfl)
    (quiet_plain (fun _ => trivial) rfl rfl)

theorem quiet_jump {ls : List Literal} {known : String → Prop} (jump : Instruction) (line : Nat)
    (hnames : ∀ ls, jump.Names ls) (hdefines : jump.definition? = none)
    (hneeds : jump.global? = none) :
    Quiet ls known [⟨jump, line⟩, ⟨.pop, line⟩] :=
  Quiet.append (a := [_]) (b := [⟨.pop, line⟩]) (quiet_plain hnames hdefines hneeds)
    (quiet_plain (fun _ => trivial) rfl rfl)

/-- A conditional needs what its condition and its body need. -/
theorem orders_ifThen {cond : Term} {line : Nat} {body : Clause} (ih : Orders (.statement body)) :
    Orders (.statement (.ifThen cond line body)) := by
  intro c c' t h
  cases Clause.derives_iff.mpr h with
  | ifThen ht hb =>
    exact (((cond.elaborate_settles ht).append (quiet_condition _ line)).trans (ih hb)).append
      (quiet_jump _ _ (fun _ => trivial) rfl rfl)

/-- Both branches may use what is known in front of them. -/
theorem orders_ifElse {cond : Term} {line : Nat} {body other : Clause}
    (ih : Orders (.statement body)) (ih' : Orders (.statement other)) :
    Orders (.statement (.ifElse cond line body other)) := by
  intro c c' t h
  cases Clause.derives_iff.mpr h with
  | ifElse ht hb _ ho =>
    exact ((((cond.elaborate_settles ht).append (quiet_condition _ line)).trans (ih hb)).append
      (quiet_jump (.jump _) _ (fun _ => trivial) rfl rfl)).trans (ih' ho)

/-- A loop needs what its condition and its body need. -/
theorem orders_loop {cond : Term} {line : Nat} {body : Clause} (ih : Orders (.statement body)) :
    Orders (.statement (.loop cond line body)) := by
  intro c c' t h
  cases Clause.derives_iff.mpr h with
  | loop ht hb =>
    exact (((cond.elaborate_settles ht).append (quiet_condition _ line)).trans (ih hb)).append
      (quiet_jump _ _ (fun _ => trivial) rfl rfl)

/-- What a block declares is local to it. -/
theorem orders_block {ss : List Clause} {line : Nat} (ih : Orders (.sequence ss)) :
    Orders (.statement (.block ss line)) := by
  intro c c' t h
  cases Clause.derives_iff.mpr h with
  | block hb =>
    obtain ⟨code, hcode, hsettles, -⟩ := ih hb
    have hbody := hsettles (Nat.succ_ne_zero c.scope.depth)
    rw [Block.postorder, List.nil_append] at hcode
    subst hcode
    refine Settles.append ⟨hbody.globals, ?_, hbody.literals, hbody.quiet⟩ ?_
    · show _ - 1 = c.scope.depth
      rw [hbody.depth]
      rfl
    · intro p hp
      rw [List.eq_of_mem_replicate hp]
      exact Instruction.quiet_of_plain (fun _ => trivial) rfl rfl

/-- The value of a declaration is read before the name is known. -/
theorem orders_declare {x : String} {nameLine line : Nat} {init : Option Term} :
    Orders (.declaration (.declare x nameLine init line)) := by
  intro c c' t h
  cases Clause.derives_iff.mpr h with
  | declare hd ht hv =>
    have hinit := (declare?_settles hd).trans (value?_settles ht)
    refine ⟨fun hdepth => ?_, fun hdepth => ?_⟩
    · exact hinit.trans (define?_settles (by rw [hinit.depth]; exact hdepth) hv line)
    · exact (hinit.proceeds (Expr.plain_postorder _).inward).trans
        (define?_proceeds (hinit.depth.trans hdepth) hv line)

/-- A function at the top level is known in its own body; inside blocks it is a local. -/
theorem orders_function {site : Nat} {x : String} {ps : List String} {ss : List Clause} {line : Nat}
    (ih : Orders (.sequence ss)) : Orders (.declaration (.function site x ps ss line)) := by
  intro c c' t h
  cases Clause.derives_iff.mpr h with
  | @function _ _ _ _ outer _ b inner index _ v _ houter _ hopened hb hclose hv =>
    -- the body, which is read inside a block
    obtain ⟨new, rfl, -, -⟩ := declareAll?_spec (by simp [openFunction, Scope.enter]) hopened
    obtain ⟨code, hcode, hsettles, -⟩ := ih hb
    have hbody := hsettles Nat.one_ne_zero
    rw [Block.postorder, List.nil_append] at hcode
    subst hcode
    have hwithin : (Function.ofBody ⟨inner.unit, inner.serial⟩ (some x) ps.length inner.literals
        b line).Within (· ∈ outer.globals) := by
      obtain ⟨more, hmore, hinner⟩ := hbody.literals
      refine within_ofBody hbody.quiet fun f hf => hinner f ?_
      rwa [hmore] at hf
    obtain ⟨hliterals, hindex, hglobals, hscope⟩ := closeFunction?_knows hclose
    rw [hbody.globals] at hglobals
    rcases declareFunction?_spec houter with ⟨hdepth, rfl⟩ | ⟨hdepth, rfl⟩
    · -- a global, which the function may use itself
      refine ⟨fun h => absurd hdepth h, fun _ => ?_⟩
      exact proceeds_function hliterals hindex hglobals (by rw [hscope]; rfl) hwithin hdepth hv
    · -- a local
      have hliteral : Settles c _ [⟨.literal index, line⟩] :=
        settles_function hliterals hindex hglobals (by rw [hscope]) hwithin
      exact ⟨fun _ => hliteral.trans (define?_settles
        (by rw [hliteral.depth]; exact hdepth) hv line),
        fun h => absurd h hdepth⟩

/-- A declaration may use what those before it have defined. -/
theorem orders_more {s : Clause} {ss : List Clause} (ih : Orders (.declaration s))
    (ihs : Orders (.sequence ss)) :
    Orders (.sequence (s :: ss)) := by
  intro c c' read b h
  cases Clause.derivesAll_iff.mpr h with
  | @cons _ _ _ t _ _ ht hts =>
    obtain ⟨hsettles, hproceeds⟩ := ih ht
    obtain ⟨code, hcode, hsettles', hproceeds'⟩ := ihs hts
    refine ⟨t.postorder ++ code, ?_, fun hdepth => ?_, fun hdepth => ?_⟩
    · rw [hcode, Block.postorder, List.append_assoc]
    · have hfirst := hsettles hdepth
      exact hfirst.trans (hsettles' (by rw [hfirst.depth]; exact hdepth))
    · have hfirst := hproceeds hdepth
      exact hfirst.trans (hproceeds' (hfirst.depth.trans hdepth))

end Sentence

/-- Resolving a sentence gives code that is in order. -/
theorem Spells.orders {ts : List Token} {σ : Sentence} (h : Spells ts σ) : σ.Orders := by
  induction h with
  | expr =>
    intro c c' t h
    cases Clause.derives_iff.mpr h with
    | expr ht => exact (Term.elaborate_settles _ ht).append (quiet_plain (fun _ => trivial) rfl rfl)
  | print =>
    intro c c' t h
    cases Clause.derives_iff.mpr h with
    | print ht =>
      exact (Term.elaborate_settles _ ht).append (quiet_plain (fun _ => trivial) rfl rfl)
  | ifThen _ _ _ _ _ ih => exact Sentence.orders_ifThen ih
  | ifElse _ _ _ _ _ _ _ _ ih ih' => exact Sentence.orders_ifElse ih ih'
  | loop _ _ _ _ _ ih => exact Sentence.orders_loop ih
  | ret | retWith =>
    intro c c' t h
    cases Clause.derives_iff.mpr h with
    | ret ht => exact (value?_settles ht).append (quiet_plain (fun _ => trivial) rfl rfl)
  | yield | stop =>
    intro c c' t h
    obtain ⟨rfl, rfl⟩ := Prod.mk.inj (Option.some.inj h)
    exact (Settles.refl c).append (quiet_plain (fun _ => trivial) rfl rfl)
  | block _ _ _ ih => exact Sentence.orders_block ih
  | @ofStatement _ s _ ih =>
    intro c c' t h
    exact ⟨fun _ => ih h, fun _ => (ih h).proceeds t.inward_postorder⟩
  | declare | declareWith => exact Sentence.orders_declare
  | function _ _ _ _ _ _ _ _ ih => exact Sentence.orders_function ih
  | functionWith _ _ _ _ _ _ _ _ _ ih => exact Sentence.orders_function ih
  | none =>
    intro c c' read b h
    obtain ⟨rfl, rfl⟩ := Prod.mk.inj (Option.some.inj h)
    exact ⟨[], (List.append_nil _).symm, fun _ => .refl c,
      fun _ => (Settles.refl c).proceeds inward_nil⟩
  | more _ _ ih ihs => exact Sentence.orders_more ih ihs

/-- The code of a script is in order, with the globals that it was resolved against. -/
theorem Script.inOrder_of_program? {s : Script} {tokens : List Token} {unit : Nat}
    {globals : List String} {p : Program} (hs : s.Spelled tokens)
    (hp : s.program? unit globals = some p) :
    InOrder p.main.chunk.literals (· ∈ globals) p.main.chunk.code.toList := by
  obtain ⟨ts, t, -, -, -, hspells⟩ := hs
  obtain ⟨body, c, hbody, rfl⟩ := Script.program?_eq_some_iff.mp hp
  obtain ⟨code, hcode, -, hproceeds⟩ := hspells.orders hbody
  rw [Block.postorder, List.nil_append] at hcode
  subst hcode
  have hlast : Quiet c.literals (fun x => x ∈ globals ∨ Defines c.literals body.postorder x)
      (placeOn s.lastLine [.nil, .ret]) :=
    Quiet.append (a := [_]) (b := [_]) (quiet_plain (fun _ => trivial) rfl rfl)
      (quiet_plain (fun _ => trivial) rfl rfl)
  exact (hproceeds rfl).ordered.append (hlast.inOrder
    (Inward.append (a := [_]) (b := [_]) (inward_of_straight (straight_singleton rfl))
      (inward_of_straight (straight_singleton rfl))))

end EntityScript
