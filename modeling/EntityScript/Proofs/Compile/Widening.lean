/-
# Hosts that offer more

A script that compiles against a host compiles against every host that offers more names, and to the
same program (`compile_extended`).  A name is looked for among the locals first, so a further global
hides none of them; and a global gets a literal only when it is used, so the literals keep their
numbers.

The proof goes through a script once, in two contexts that differ in the globals alone
(`Context.Wider`).  Whatever resolves in the first resolves in the second, in the same way.
-/
import EntityScript.Host.Builtins
import EntityScript.Proofs.Compile.Acceptance
import EntityScript.Proofs.Script.Simulation

namespace EntityScript

namespace Context

/-- The second context knows the globals of the first, and is the same in all else. -/
inductive Wider (c : Context) : Context → Prop where
  | mk {globals : List String} : c.globals ⊆ globals → Wider c { c with globals := globals }

section

variable {c c' d d' : Context} {x : String}

namespace Wider

theorem withScope (h : Wider c c') (s : Scope) :
    Wider { c with scope := s } { c' with scope := s } := by
  obtain ⟨hglobals⟩ := h
  exact .mk hglobals

theorem scope (h : Wider c c') : c'.scope = c.scope := by
  obtain ⟨_⟩ := h
  rfl

/-! ## Literals -/

/-- A literal is added to both alike: globals are none. -/
theorem addLiteral? (h : Wider c c') (l : Literal) :
    Accompanies (Agree Wider) (c.addLiteral? l) (c'.addLiteral? l) := by
  obtain ⟨hglobals⟩ := h
  rw [Context.addLiteral?, Context.addLiteral?]
  split
  · refine .some (.mk ?_)
    cases l with
    | string s =>
      rw [noteString, noteString]
      dsimp only
      split <;> exact .mk hglobals
    | int | float | function => exact .mk hglobals
  · exact .none _

/-! ## Names -/

theorem addGlobal (h : Wider c c') (x : String) : Wider (c.addGlobal x) (c'.addGlobal x) := by
  obtain ⟨hglobals⟩ := h
  refine .mk fun y hy => ?_
  rcases List.mem_insert_iff.mp hy with rfl | hy
  · exact List.mem_insert_self
  · exact List.mem_insert_of_mem (hglobals hy)

/-- A wider context resolves expressions alike. -/
theorem simulation : Simulation Wider where
  scope h := h.scope
  globals h := by
    obtain ⟨hglobals⟩ := h
    exact hglobals
  indexOfString? h x := by
    obtain ⟨_⟩ := h
    rfl
  withScope h := h.withScope
  addGlobal h := h.addGlobal
  addLiteral? h l _ := h.addLiteral? l

theorem openFunction (h : Wider c c') : Wider c.openFunction c'.openFunction := by
  obtain ⟨hglobals⟩ := h
  exact .mk hglobals

/-- The end of a function, whose context is `c`; the context around it is `d`. -/
theorem closeFunction? (h : Wider c c') (houter : Wider d d') (f : Function) :
    Accompanies (Agree Wider) (c.closeFunction? d f) (c'.closeFunction? d' f) := by
  have hclosed : Wider { c with scope := d.scope, literals := d.literals, serial := c.serial + 1 }
      { c' with scope := d'.scope, literals := d'.literals, serial := c'.serial + 1 } := by
    obtain ⟨hglobals⟩ := h
    obtain ⟨_⟩ := houter
    exact .mk hglobals
  exact hclosed.addLiteral? _

end Wider

end

end Context

open Context

/-! ## Scripts -/

mutual

/-- A statement or a declaration resolves to the same tree in a wider context. -/
theorem Clause.elaborate_wider {c c' : Context} (s : Clause) (h : c.Wider c') :
    Accompanies (Agree Wider) (s.elaborate c) (s.elaborate c') := by
  cases s with
  | expr e line | print e line =>
    rw [Clause.elaborate, Clause.elaborate]
    exact Agree.bind (Wider.simulation.elaborate true e h) fun _ _ _ _ hd => .some (.mk hd)
  | declare x nameLine init line =>
    rw [Clause.elaborate, Clause.elaborate]
    exact (Wider.simulation.declare? h x).bind fun _ _ _ hd =>
      Agree.bind (Wider.simulation.value? hd nameLine init) fun _ _ _ _ he =>
      Agree.bind (Wider.simulation.define? he x) fun _ _ _ _ hg => .some (.mk hg)
  | function site x parameters body line =>
    rw [Clause.elaborate, Clause.elaborate]
    refine (Wider.simulation.declareFunction? h x).bind fun outer outer' _ houter =>
      .same (guard _) fun _ =>
      (Wider.simulation.declareAll? houter.openFunction parameters).bind fun _ _ _ hd =>
      Agree.bind (Clause.elaborateAll_wider body .empty hd) fun b inner inner' _ hinner => ?_
    -- the numbers of functions are the same, and so is the compiled function
    have hclose := hinner.closeFunction? houter
    obtain ⟨_⟩ := hinner
    exact .same (guard _) fun _ => Agree.bind (hclose _) fun _ _ _ _ hg =>
      Agree.bind (Wider.simulation.define? hg x) fun _ _ _ _ hj => .some (.mk hj)
  | ifThen cond line body =>
    rw [Clause.elaborate, Clause.elaborate]
    exact Agree.bind (Wider.simulation.elaborate true cond h) fun _ _ _ _ hd =>
      Agree.bind (body.elaborate_wider hd) fun _ _ _ _ he => .same (guard _) fun _ => .some (.mk he)
  | ifElse cond line body other =>
    rw [Clause.elaborate, Clause.elaborate]
    exact Agree.bind (Wider.simulation.elaborate true cond h) fun _ _ _ _ hd =>
      Agree.bind (body.elaborate_wider hd) fun _ _ _ _ he => .same (guard _) fun _ =>
      Agree.bind (other.elaborate_wider he) fun _ _ _ _ hg => .same (guard _) fun _ =>
        .some (.mk hg)
  | loop cond line body =>
    rw [Clause.elaborate, Clause.elaborate]
    exact Agree.bind (Wider.simulation.elaborate true cond h) fun _ _ _ _ hd =>
      Agree.bind (body.elaborate_wider hd) fun _ _ _ _ he => .same (guard _) fun _ => .some (.mk he)
  | ret value line =>
    rw [Clause.elaborate, Clause.elaborate]
    exact Agree.bind (Wider.simulation.value? h line value) fun _ _ _ _ hd => .some (.mk hd)
  | yield line | stop line =>
    rw [Clause.elaborate, Clause.elaborate]
    exact .some (.mk h)
  | block body line =>
    rw [Clause.elaborate, Clause.elaborate]
    refine Agree.bind (Clause.elaborateAll_wider body .empty (Wider.simulation.enter h))
      fun b d d' _ hd => ?_
    dsimp only
    rw [hd.scope]
    exact .some (.mk (Wider.simulation.leave hd))

/-- Statements and declarations resolve to the same trees in a wider context. -/
theorem Clause.elaborateAll_wider {c c' : Context} (ss : List Clause) (read : Block)
    (h : c.Wider c') :
    Accompanies (Agree Wider) (Clause.elaborateAll ss read c) (Clause.elaborateAll ss read c') := by
  cases ss with
  | nil =>
    rw [Clause.elaborateAll, Clause.elaborateAll]
    exact .some (.mk h)
  | cons s ss =>
    rw [Clause.elaborateAll, Clause.elaborateAll]
    exact Agree.bind (s.elaborate_wider h) fun t _ _ _ hd =>
      Clause.elaborateAll_wider ss (read.append t) hd

end

/-- A script becomes the same program where more globals may be used. -/
theorem Script.program?_wider {s : Script} {unit : Nat} {globals globals' : List String}
    (h : globals ⊆ globals') {p : Program} (hp : s.program? unit globals = some p) :
    s.program? unit globals' = some p := by
  have hstart : (start unit globals).Wider (start unit globals') := .mk h
  have hprogram : Accompanies Eq (s.program? unit globals) (s.program? unit globals') :=
    Agree.bind (Clause.elaborateAll_wider s.body .empty hstart) fun _ _ _ _ hd =>
      .some (by obtain ⟨_⟩ := hd; rfl)
  obtain ⟨q, hq, rfl⟩ := hprogram p hp
  exact hq

/-- A source that compiles against a host compiles against every host that offers the same names and
more, and the program is the same: the texts, the functions, and their literals, instructions and
lines. -/
theorem compile_extended {host host' : Host} (h : ∀ x ∈ host.names, x ∈ host'.names) {unit : Nat}
    {source : String} {p : Program} (hp : compile unit host.names source = .ok p) :
    compile unit host'.names source = .ok p := by
  obtain ⟨hgood, s, hspelled, hprogram⟩ := (compile_eq_ok_iff unit host.names source p).mp hp
  exact (compile_eq_ok_iff unit host'.names source p).mpr
    ⟨hgood, s, hspelled, s.program?_wider h hprogram⟩

/-- A host that offers `abs` and nothing else. -/
def Host.magnitude : Host :=
  empty.addNative ⟨"abs", some 1, 0, Builtin.abs⟩

/-- A script that uses `abs`.  It declares a global, a parameter and a local with names of other
built-in natives. -/
def shadowingScript : String :=
  "fun floor(int) \x7b let sqrt = abs(int); return sqrt; \x7d print floor(4);"

/-- A script whose function, parameter and local have the names of natives that only the second host
offers. -/
theorem compile_extended_shadowing :
    (∀ x ∈ Host.magnitude.names, x ∈ Host.builtins.names) ∧ ∃ p,
      compile 0 Host.magnitude.names shadowingScript = .ok p ∧
      compile 0 Host.builtins.names shadowingScript = .ok p := by
  have hnames : ∀ x ∈ Host.magnitude.names, x ∈ Host.builtins.names := by decide +kernel
  have hok : (compile 0 Host.magnitude.names shadowingScript).isOk = true := by decide +kernel
  obtain ⟨p, hp⟩ := exists_of_isOk hok
  exact ⟨hnames, p, hp, compile_extended hnames hp⟩

end EntityScript
