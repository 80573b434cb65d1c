/-
# Scripts without yields

A script stays a script when each of its `yield` statements gives way to an empty block
(`Spells.withoutYields`).  The two scripts are resolved side by side, in contexts that differ only
in the functions among the literals: names get the same slots and indices, an empty block has no
locals to drop, and no jump becomes longer.  So if the first keeps the static rules the second does,
too, and its program is the program of the first without pauses (`compile_withoutYields`).
-/
import EntityScript.Proofs.Code.Pauses
import EntityScript.Proofs.Compile.Acceptance
import EntityScript.Proofs.Script.Fitting
import EntityScript.Proofs.Script.Simulation
import EntityScript.Proofs.Token.Yields
import Mathlib.Data.List.Forall2

namespace EntityScript

/-! ## The tree -/

mutual

/-- A statement with an empty block in place of each `yield`. -/
def Clause.withoutYields : Clause → Clause
  | .yield line => .block [] line
  | .function site x parameters body line =>
    .function site x parameters (Clause.withoutYieldsAll body) line
  | .ifThen cond line body => .ifThen cond line body.withoutYields
  | .ifElse cond line body other => .ifElse cond line body.withoutYields other.withoutYields
  | .loop cond line body => .loop cond line body.withoutYields
  | .block body line => .block (Clause.withoutYieldsAll body) line
  | .expr e line => .expr e line
  | .print e line => .print e line
  | .declare x nameLine init line => .declare x nameLine init line
  | .ret value line => .ret value line
  | .stop line => .stop line

/-- Statements and declarations without yields. -/
def Clause.withoutYieldsAll : List Clause → List Clause
  | [] => []
  | s :: ss => s.withoutYields :: Clause.withoutYieldsAll ss

end

def Sentence.withoutYields : Sentence → Sentence
  | .statement s => .statement s.withoutYields
  | .declaration s => .declaration s.withoutYields
  | .sequence ss => .sequence (Clause.withoutYieldsAll ss)

section

attribute [local simp] Clause.withoutYields

/-- The lines of a script stay where they are. -/
@[simp] theorem Clause.lastLine_withoutYields (s : Clause) :
    s.withoutYields.lastLine = s.lastLine := by
  cases s with
  | ifThen cond line body => simp [Clause.lastLine, body.lastLine_withoutYields]
  | ifElse cond line body other => simp [Clause.lastLine, other.lastLine_withoutYields]
  | loop cond line body => simp [Clause.lastLine, body.lastLine_withoutYields]
  | expr | print | declare | function | ret | yield | stop | block => simp [Clause.lastLine]

@[simp] theorem Clause.isOpen_withoutYields (s : Clause) : s.withoutYields.isOpen = s.isOpen := by
  cases s with
  | ifElse cond line body other => simp [Clause.isOpen, other.isOpen_withoutYields]
  | loop cond line body => simp [Clause.isOpen, body.isOpen_withoutYields]
  | ifThen | expr | print | declare | function | ret | yield | stop | block => simp [Clause.isOpen]

end

/-! ## The grammar -/

theorem TokenKind.ne_kwYield {k : TokenKind} (h : k.inTerm = true) : k ≠ .kwYield := by
  rintro rfl
  cases h

/-- An expression has no `yield`. -/
theorem Derives.cleared {ts : List Token} {φ : Phrase} (h : Derives ts φ) : Token.Cleared ts ts :=
  .refl fun t ht => TokenKind.ne_kwYield (h.inTerm t ht)

theorem Parameters.cleared {ts : List Token} {xs : List String} (h : Parameters ts xs) :
    Token.Cleared ts ts :=
  .refl fun t ht => TokenKind.ne_kwYield (h.inTerm t ht)

/-- A token of another kind. -/
theorem Token.Cleared.cons {t : Token} {k : TokenKind} {ts ts' : List Token} (ht : t.kind = k)
    (hk : (k != .kwYield) = true) (h : Token.Cleared ts ts') : Token.Cleared (t :: ts) (t :: ts') :=
  .keep (ht ▸ bne_iff_ne.mp hk) h

theorem Token.Cleared.one {t : Token} {k : TokenKind} (ht : t.kind = k)
    (hk : (k != .kwYield) = true) :
    Token.Cleared [t] [t] :=
  .cons ht hk .nil

/-- A script without its yields is spelled by its tokens without the yields. -/
theorem Spells.withoutYields {ts : List Token} {σ : Sentence} (h : Spells ts σ) :
    ∃ ts', Token.Cleared ts ts' ∧ Spells ts' σ.withoutYields := by
  induction h with
  | expr he hsemi => exact ⟨_, he.cleared.append (.one hsemi rfl), .expr he hsemi⟩
  | print hkw he hsemi =>
    exact ⟨_, (Token.Cleared.cons hkw rfl he.cleared).append (.one hsemi rfl), .print hkw he hsemi⟩
  | ifThen hkw hlp hcond hrp _ ih =>
    obtain ⟨us', hus, hbody⟩ := ih
    exact ⟨_, (Token.Cleared.cons hkw rfl (.cons hlp rfl hcond.cleared)).append (.cons hrp rfl hus),
      .ifThen hkw hlp hcond hrp hbody⟩
  | ifElse hkw hlp hcond hrp _ hopen hel _ ih ih' =>
    obtain ⟨us', hus, hbody⟩ := ih
    obtain ⟨vs', hvs, hother⟩ := ih'
    exact ⟨_, ((Token.Cleared.cons hkw rfl (.cons hlp rfl hcond.cleared)).append
      (.cons hrp rfl hus)).append (.cons hel rfl hvs),
      .ifElse hkw hlp hcond hrp hbody (by rw [Clause.isOpen_withoutYields, hopen]) hel hother⟩
  | loop hkw hlp hcond hrp _ ih =>
    obtain ⟨us', hus, hbody⟩ := ih
    exact ⟨_, (Token.Cleared.cons hkw rfl (.cons hlp rfl hcond.cleared)).append (.cons hrp rfl hus),
      .loop hkw hlp hcond hrp hbody⟩
  | ret hkw hsemi => exact ⟨_, .cons hkw rfl (.one hsemi rfl), .ret hkw hsemi⟩
  | retWith hkw he hsemi =>
    exact ⟨_, (Token.Cleared.cons hkw rfl he.cleared).append (.one hsemi rfl),
      .retWith hkw he hsemi⟩
  | @yield kw semi hkw hsemi =>
    -- an empty block stands where the yield was
    have hblock : Spells ([⟨.leftBrace, "\x7b", kw.line⟩] ++ [⟨.rightBrace, "\x7d", semi.line⟩])
        (.statement (.block [] semi.line)) := .block rfl .none rfl
    exact ⟨_, .clear hkw hsemi .nil, hblock⟩
  | stop hkw hsemi => exact ⟨_, .cons hkw rfl (.one hsemi rfl), .stop hkw hsemi⟩
  | block hlb _ hrb ih =>
    obtain ⟨ts', hts, hss⟩ := ih
    exact ⟨_, (Token.Cleared.cons hlb rfl hts).append (.one hrb rfl), .block hlb hss hrb⟩
  | ofStatement _ ih =>
    obtain ⟨ts', hts, hs⟩ := ih
    exact ⟨ts', hts, .ofStatement hs⟩
  | declare hkw hx hsemi =>
    exact ⟨_, .cons hkw rfl (.cons hx rfl (.one hsemi rfl)), .declare hkw hx hsemi⟩
  | declareWith hkw hx heq he hsemi =>
    exact ⟨_, (Token.Cleared.cons hkw rfl (.cons hx rfl (.cons heq rfl he.cleared))).append
      (.one hsemi rfl), .declareWith hkw hx heq he hsemi⟩
  | function site hkw hx hlp hrp hlb _ hrb ih =>
    obtain ⟨ts', hts, hss⟩ := ih
    exact ⟨_, (Token.Cleared.cons hkw rfl (.cons hx rfl (.cons hlp rfl (.cons hrp rfl
      (.cons hlb rfl hts))))).append (.one hrb rfl), .function site hkw hx hlp hrp hlb hss hrb⟩
  | functionWith site hkw hx hlp hps hrp hlb _ hrb ih =>
    obtain ⟨ts', hts, hss⟩ := ih
    exact ⟨_, ((Token.Cleared.cons hkw rfl (.cons hx rfl (.cons hlp rfl hps.cleared))).append
      (.cons hrp rfl (.cons hlb rfl hts))).append (.one hrb rfl),
      .functionWith site hkw hx hlp hps hrp hlb hss hrb⟩
  | none => exact ⟨[], .nil, .none⟩
  | more _ _ ih ihs =>
    obtain ⟨ts', hts, hs⟩ := ih
    obtain ⟨us', hus, hss⟩ := ihs
    exact ⟨_, hts.append hus, .more hs hss⟩

/-! ## Contexts side by side -/

namespace Context

variable {renamed : FunctionId → FunctionId} {c c' d d' : Context} {x : String}

/-- Two contexts that differ only in the functions among the literals, which are twins. -/
structure Twins (renamed : FunctionId → FunctionId) (c c' : Context) : Prop where
  scope : c'.scope = c.scope
  literals : Literal.Twins renamed c.literals c'.literals
  globals : c'.globals = c.globals
  strings : c'.strings = c.strings
  serial : c'.serial = c.serial
  unit : ∀ n, renamed ⟨c.unit, n⟩ = ⟨c'.unit, n⟩

namespace Twins

/-- A text is noted on both sides. -/
theorem noteString (h : Twins renamed c c') {l l' : Literal} (hl : Literal.Twin renamed l l') :
    Twins renamed (c.noteString l) (c'.noteString l') := by
  cases hl with
  | int | float | function => exact h
  | string text =>
    rw [Context.noteString, Context.noteString, h.strings]
    split
    · exact h
    · exact ⟨h.scope, h.literals, h.globals, rfl, h.serial, h.unit⟩

/-- Twin literals get the same index. -/
theorem addLiteral? (h : Twins renamed c c') {l l' : Literal} (hl : Literal.Twin renamed l l') :
    Accompanies (Agree (Twins renamed)) (c.addLiteral? l) (c'.addLiteral? l') := by
  rw [Context.addLiteral?, Context.addLiteral?, h.literals.length_eq]
  split
  · have hnote := h.noteString hl
    exact .some (.mk ⟨hnote.scope, h.literals.append (.cons hl .nil), hnote.globals, hnote.strings,
      hnote.serial, hnote.unit⟩)
  · exact .none _

theorem withScope (h : Twins renamed c c') (s : Scope) :
    Twins renamed { c with scope := s } { c' with scope := s } :=
  ⟨rfl, h.literals, h.globals, h.strings, h.serial, h.unit⟩

theorem addGlobal (h : Twins renamed c c') (x : String) :
    Twins renamed (c.addGlobal x) (c'.addGlobal x) := by
  refine ⟨h.scope, h.literals, ?_, h.strings, h.serial, h.unit⟩
  rw [Context.addGlobal, Context.addGlobal, h.globals]

/-- Twins resolve expressions alike: no expression contains a function. -/
theorem simulation : Simulation (Twins renamed) where
  scope h := h.scope
  globals h := by
    rw [h.globals]
    exact List.Subset.refl _
  indexOfString? h := h.literals.indexOfString?_eq
  withScope h := h.withScope
  addGlobal h := h.addGlobal
  addLiteral? h l hl := by
    cases l with
    | int n => exact h.addLiteral? (.int n)
    | float bits => exact h.addLiteral? (.float bits)
    | string text => exact h.addLiteral? (.string text)
    | function f => exact absurd rfl (hl f)

theorem openFunction (h : Twins renamed c c') : Twins renamed c.openFunction c'.openFunction :=
  ⟨rfl, .nil, h.globals, h.strings, h.serial, h.unit⟩

/-- Twin functions get the same index among the literals. -/
theorem closeFunction? (h : Twins renamed c c') (houter : Twins renamed d d') {f f' : Function}
    (hf : Function.Twin renamed f f') :
    Accompanies (Agree (Twins renamed)) (c.closeFunction? d f) (c'.closeFunction? d' f') := by
  have hd : Twins renamed
      { c with scope := d.scope, literals := d.literals, serial := c.serial + 1 }
      { c' with scope := d'.scope, literals := d'.literals, serial := c'.serial + 1 } :=
    ⟨houter.scope, houter.literals, h.globals, h.strings, by rw [h.serial], h.unit⟩
  exact hd.addLiteral? (.function hf)

end Twins

end Context

/-! ## Statements side by side -/

section

variable {renamed : FunctionId → FunctionId} {c c' : Context}

open Context

/-- Two trees, the second with the code of the first without pauses, and contexts that are twins. -/
inductive Context.Clear {α : Type} (code : α → List Placed) (renamed : FunctionId → FunctionId) :
    α × Context → α × Context → Prop where
  | mk {a a' : α} {d d' : Context} : Unpaused (code a) (code a') → Twins renamed d d' →
    Clear code renamed (a, d) (a', d')

/-- Trees with their contexts are taken further on both sides. -/
theorem Context.Clear.bind {α β γ : Type} {code : α → List Placed} {x y : Option (α × Context)}
    {f : α × Context → Option β} {g : α × Context → Option γ} {S : β → γ → Prop}
    (h : Accompanies (Clear code renamed) x y)
    (hf : ∀ a a' d d', x = some (a, d) → Unpaused (code a) (code a') → Twins renamed d d' →
      Accompanies S (f (a, d)) (g (a', d'))) : Accompanies S (x >>= f) (y >>= g) := by
  refine h.bind fun p q hp hpq => ?_
  cases hpq with
  | mk ha hd => exact hf _ _ _ _ hp ha hd

namespace Sentence

/-- A sentence and the same without yields are resolved to the same code, but for the pauses. -/
def Clears (renamed : FunctionId → FunctionId) : Sentence → Prop
  | .statement s => ∀ ⦃c c' : Context⦄, c.scope.Tidy → Twins renamed c c' →
      Accompanies (Clear Stmt.postorder renamed) (s.elaborate c) (s.withoutYields.elaborate c')
  | .declaration s => ∀ ⦃c c' : Context⦄, c.scope.Tidy → Twins renamed c c' →
      Accompanies (Clear Stmt.postorder renamed) (s.elaborate c) (s.withoutYields.elaborate c')
  | .sequence ss => ∀ ⦃c c' : Context⦄ ⦃read read' : Block⦄, c.scope.Tidy → Twins renamed c c' →
      Unpaused read.postorder read'.postorder →
      Accompanies (Clear Block.postorder renamed) (Clause.elaborateAll ss read c)
        (Clause.elaborateAll (Clause.withoutYieldsAll ss) read' c')

variable {line : Nat}

/-- Expressions leave the scope alone. -/
theorem tidy_term {e : Term} {head : Bool} {c d : Context} {t : Expr} (hs : c.scope.Tidy)
    (he : e.elaborate head c = some (t, d)) : d.scope.Tidy := by
  obtain ⟨more, hadds, -⟩ := e.elaborate_fits hs.readable he
  rw [hadds.scope]
  exact hs

theorem tidy_statement {s : Clause} {c d : Context} {t : Stmt} (hr : Resolves (.statement s))
    (hs : c.scope.Tidy) (he : s.elaborate c = some (t, d)) : d.scope.Tidy := by
  obtain ⟨more, -, hscope, -⟩ := hr hs he
  rw [hscope]
  exact hs

theorem tidy_declaration {s : Clause} {c d : Context} {t : Stmt} (hr : Resolves (.declaration s))
    (hs : c.scope.Tidy) (he : s.elaborate c = some (t, d)) : d.scope.Tidy := by
  obtain ⟨more, new, -, hscope, -, hnew, -⟩ := hr hs he
  rw [hscope]
  exact hs.append hnew

/-- The code of an expression and one more instruction. -/
theorem unpaused_term (t : Expr) {instruction : Instruction} (hyield : instruction ≠ .yield)
    (hjump : instruction.isJump = false) :
    Unpaused (t.postorder ++ [⟨instruction, line⟩]) (t.postorder ++ [⟨instruction, line⟩]) :=
  (Unpaused.refl t.plain_postorder).append (.one hyield hjump)

/-- An expression statement has no pauses. -/
theorem clears_expr (e : Term) : Clears renamed (.statement (.expr e line)) := by
  intro c c' _ h
  rw [Clause.withoutYields, Clause.elaborate, Clause.elaborate]
  exact Agree.bind (Twins.simulation.elaborate true e h) fun t _ _ _ hd =>
    .some (.mk (unpaused_term t (fun heq => by cases heq) rfl) hd)

theorem clears_print (e : Term) : Clears renamed (.statement (.print e line)) := by
  intro c c' _ h
  rw [Clause.withoutYields, Clause.elaborate, Clause.elaborate]
  exact Agree.bind (Twins.simulation.elaborate true e h) fun t _ _ _ hd =>
    .some (.mk (unpaused_term t (fun heq => by cases heq) rfl) hd)

/-- A return has none, with or without a value. -/
theorem clears_ret (value : Option Term) : Clears renamed (.statement (.ret value line)) := by
  intro c c' _ h
  rw [Clause.withoutYields, Clause.elaborate, Clause.elaborate]
  exact Agree.bind (Twins.simulation.value? h line value) fun t _ _ _ hd =>
    .some (.mk (unpaused_term t (fun heq => by cases heq) rfl) hd)

theorem clears_stop : Clears renamed (.statement (.stop line)) := by
  intro c c' _ h
  rw [Clause.withoutYields, Clause.elaborate, Clause.elaborate]
  exact .some (.mk (.one (fun heq => by cases heq) rfl) h)

/-- The block in place of a `yield` has no code and changes nothing. -/
theorem clears_yield : Clears renamed (.statement (.yield line)) := by
  intro c c' hs h
  have hleave : c'.scope.enter.leave = (0, c.scope) := by
    rw [h.scope]
    have hnone : ∀ l ∈ ([] : List Local), l.depth = some (c.scope.depth + 1) :=
      fun l hl => by cases hl
    exact hs.leave hnone
  rw [Clause.withoutYields, Clause.elaborate, Clause.elaborate, Clause.elaborateAll]
  have hcode : Unpaused (Stmt.yield line).postorder
    (Stmt.block .empty c'.scope.enter.leave.1 line).postorder := by
    rw [hleave]
    exact .yield line
  refine .some (.mk hcode ⟨?_, h.literals, h.globals, h.strings, h.serial, h.unit⟩)
  show c'.scope.enter.leave.2 = c.scope
  rw [hleave]

/-- The body of a conditional loses its pauses, and the jump over it becomes shorter. -/
theorem clears_ifThen {cond : Term} {body : Clause} (ih : Clears renamed (.statement body)) :
    Clears renamed (.statement (.ifThen cond line body)) := by
  intro c c' hs h
  rw [Clause.withoutYields, Clause.elaborate, Clause.elaborate, Clause.lastLine_withoutYields]
  refine Agree.bind (Twins.simulation.elaborate true cond h) fun t d d' ht hd =>
    Clear.bind (ih (tidy_term hs ht) hd) fun b b' e e' _ hb he => ?_
  have hle : b'.postorder.length ≤ b.postorder.length := hb.length_le
  exact Accompanies.bind (.guard (by omega)) fun _ _ _ _ =>
    .some (.mk (.ifThen line _ t.plain_postorder hb) he)

/-- Both branches of a conditional lose their pauses. -/
theorem clears_ifElse {cond : Term} {body other : Clause} (hr : Resolves (.statement body))
    (ih : Clears renamed (.statement body)) (ih' : Clears renamed (.statement other)) :
    Clears renamed (.statement (.ifElse cond line body other)) := by
  intro c c' hs h
  rw [Clause.withoutYields, Clause.elaborate, Clause.elaborate, Clause.lastLine_withoutYields]
  refine Agree.bind (Twins.simulation.elaborate true cond h) fun t d d' ht hd =>
    Clear.bind (ih (tidy_term hs ht) hd) fun b b' e e' hb hbody he => ?_
  have hle : b'.postorder.length ≤ b.postorder.length := hbody.length_le
  refine Accompanies.bind (.guard (by omega)) fun _ _ _ _ =>
    Clear.bind (ih' (tidy_statement hr (tidy_term hs ht) hb) he) fun o o' k k' _ hother hk => ?_
  have hle' : o'.postorder.length ≤ o.postorder.length := hother.length_le
  exact Accompanies.bind (.guard (by omega)) fun _ _ _ _ =>
    .some (.mk (.ifElse line _ t.plain_postorder hbody hother) hk)

/-- The body of a loop loses its pauses, and both jumps become shorter. -/
theorem clears_loop {cond : Term} {body : Clause} (ih : Clears renamed (.statement body)) :
    Clears renamed (.statement (.loop cond line body)) := by
  intro c c' hs h
  rw [Clause.withoutYields, Clause.elaborate, Clause.elaborate, Clause.lastLine_withoutYields]
  refine Agree.bind (Twins.simulation.elaborate true cond h) fun t d d' ht hd =>
    Clear.bind (ih (tidy_term hs ht) hd) fun b b' e e' _ hb he => ?_
  have hle : b'.postorder.length ≤ b.postorder.length := hb.length_le
  exact Accompanies.bind (.guard (by omega)) fun _ _ _ _ =>
    .some (.mk (.loop line _ t.plain_postorder hb) he)

/-- A block loses the pauses in it, but none of its locals. -/
theorem clears_block {ss : List Clause} (ih : Clears renamed (.sequence ss)) :
    Clears renamed (.statement (.block ss line)) := by
  intro c c' hs h
  rw [Clause.withoutYields, Clause.elaborate, Clause.elaborate]
  refine Clear.bind (ih hs.enter (Twins.simulation.enter h) .nil) fun b b' d d' _ hb hd => ?_
  refine .some (.mk ?_ (Twins.simulation.leave hd))
  rw [hd.scope, Stmt.postorder, Stmt.postorder]
  refine hb.append (.refl fun p hp => ?_)
  rw [List.eq_of_mem_replicate hp]
  rfl

/-- A declaration of a variable has no pauses. -/
theorem clears_declare {x : String} {nameLine : Nat} {init : Option Term} :
    Clears renamed (.declaration (.declare x nameLine init line)) := by
  intro c c' _ h
  rw [Clause.withoutYields, Clause.elaborate, Clause.elaborate]
  exact (Twins.simulation.declare? h x).bind fun d d' _ hd =>
    Agree.bind (Twins.simulation.value? hd nameLine init) fun t e e' _ he =>
    Agree.bind (Twins.simulation.define? he x) fun v k k' _ hk =>
      .some (.mk ((Unpaused.refl t.plain_postorder).append (.refl (v.place.plain_definer line))) hk)

/-- The code of a function without pauses. -/
theorem twin_ofBody (id : FunctionId) (name : Option String) (arity line : Nat)
    {ls ls' : List Literal} {b b' : Block} (hls : Literal.Twins renamed ls ls')
    (hb : Unpaused b.postorder b'.postorder) :
    Function.Twin renamed (.ofBody id name arity ls b line)
      (.ofBody (renamed id) name arity ls' b' line) :=
  .mk (.of_unpaused hb line) hls

/-- A function loses its pauses and becomes a twin of itself. -/
theorem clears_function {site : Nat} {x : String} {ps : List String} {ss : List Clause}
    (ih : Clears renamed (.sequence ss)) :
    Clears renamed (.declaration (.function site x ps ss line)) := by
  intro c c' _ h
  rw [Clause.withoutYields, Clause.elaborate, Clause.elaborate]
  refine (Twins.simulation.declareFunction? h x).bind fun outer outer' _ houter =>
    .same (guard _) fun _ =>
    (Twins.simulation.declareAll? houter.openFunction ps).bind fun inner inner' hin hinner => ?_
  -- the parameters are the first locals of the body
  have htidy : inner.scope.Tidy := by
    obtain ⟨new, rfl, -, hnew⟩ := declareAll?_spec (by simp [openFunction, Scope.enter]) hin
    exact Scope.tidy_start.enter.append hnew
  refine Clear.bind (ih htidy hinner .nil) fun b b' d d' _ hb hd =>
    Accompanies.bind (.guard fun hsite => hsite.trans hd.serial.symm) fun _ _ _ _ => ?_
  have htwin := twin_ofBody ⟨d.unit, site⟩ (some x) ps.length line hd.literals hb
  rw [hd.unit] at htwin
  exact Agree.bind (hd.closeFunction? houter htwin) fun index e e' _ he =>
    Agree.bind (Twins.simulation.define? he x) fun v k k' _ hk =>
      .some (.mk ((Unpaused.one (fun heq => by cases heq) rfl).append
      (.refl (v.place.plain_definer line))) hk)

theorem clears_none : Clears renamed (.sequence []) := by
  intro c c' read read' _ h hread
  rw [Clause.withoutYieldsAll, Clause.elaborateAll, Clause.elaborateAll]
  exact .some (.mk hread h)

/-- A sequence loses the pauses of its parts. -/
theorem clears_more {s : Clause} {ss : List Clause} (hr : Resolves (.declaration s))
    (ih : Clears renamed (.declaration s)) (ihs : Clears renamed (.sequence ss)) :
    Clears renamed (.sequence (s :: ss)) := by
  intro c c' read read' hs h hread
  rw [Clause.withoutYieldsAll, Clause.elaborateAll, Clause.elaborateAll]
  exact Clear.bind (ih hs h) fun t t' d d' ht hcode hd =>
    ihs (tidy_declaration hr hs ht) hd (hread.append hcode)

end Sentence

/-- Resolving a sentence without its yields gives the code without the pauses. -/
theorem Spells.clears {ts : List Token} {σ : Sentence} (h : Spells ts σ) :
    σ.Clears renamed := by
  induction h with
  | expr => exact Sentence.clears_expr _
  | print => exact Sentence.clears_print _
  | ifThen _ _ _ _ _ ih => exact Sentence.clears_ifThen ih
  | ifElse _ _ _ _ hbody _ _ _ ih ih' => exact Sentence.clears_ifElse hbody.resolves ih ih'
  | loop _ _ _ _ _ ih => exact Sentence.clears_loop ih
  | ret | retWith => exact Sentence.clears_ret _
  | yield => exact Sentence.clears_yield
  | stop => exact Sentence.clears_stop
  | block _ _ _ ih => exact Sentence.clears_block ih
  | ofStatement _ ih => exact ih
  | declare | declareWith => exact Sentence.clears_declare
  | function _ _ _ _ _ _ _ _ ih => exact Sentence.clears_function ih
  | functionWith _ _ _ _ _ _ _ _ _ ih => exact Sentence.clears_function ih
  | none => exact Sentence.clears_none
  | more hs _ ih ihs => exact Sentence.clears_more hs.resolves ih ihs

end

/-! ## Programs -/

/-- A source that compiles also compiles without its yields, to the same program without its
pauses. -/
theorem compile_withoutYields {unit unit' : Nat} {globals : List String} {source source' : String}
    {p : Program} {renamed : FunctionId → FunctionId} (hunit : ∀ n, renamed ⟨unit, n⟩ = ⟨unit', n⟩)
    (hp : compile unit globals source = .ok p)
    (hsource : tokens source' = Token.withoutYields (tokens source)) :
    ∃ p', compile unit' globals source' = .ok p' ∧ p'.strings = p.strings ∧
      Function.Twin renamed p.main p'.main := by
  obtain ⟨s, ⟨ts, t, htokens, ht, hline, hspells⟩, hprogram⟩ :=
    spelled_of_compileTokens (orderly_tokens source) hp
  -- the tokens and the tree without yields
  obtain ⟨ts', hcleared, hspells'⟩ := hspells.withoutYields
  have heof : Token.Cleared [t] [t] := .one ht rfl
  have htokens' : tokens source' = ts' ++ [t] := by
    rw [hsource, htokens]
    exact (hcleared.append heof).withoutYields_eq
  have hspelled : Script.Spelled ⟨Clause.withoutYieldsAll s.body, s.lastLine⟩ (tokens source') :=
    ⟨ts', t, htokens', ht, hline, hspells'⟩
  have hgood : ∀ u ∈ tokens source', u.kind ≠ .error := by
    intro u hu
    rw [htokens'] at hu
    rcases List.mem_append.mp hu with hu | hu
    · exact hspells'.good u hu
    · obtain rfl := List.mem_singleton.mp hu
      rw [ht]
      decide
  -- the program without pauses
  obtain ⟨b, c, hb, rfl⟩ := Script.program?_eq_some_iff.mp hprogram
  have hstart : Context.Twins renamed (.start unit globals) (.start unit' globals) :=
    ⟨rfl, .nil, rfl, rfl, rfl, hunit⟩
  have hempty : Unpaused Block.empty.postorder Block.empty.postorder := .nil
  obtain ⟨⟨b', c'⟩, hb', hclear⟩ := hspells.clears Scope.tidy_start hstart hempty _ hb
  cases hclear with
  | mk hcode hc =>
    have hmain := Sentence.twin_ofBody ⟨unit, 0⟩ none 0 s.lastLine hc.literals hcode
    rw [hunit] at hmain
    refine ⟨⟨.ofBody ⟨unit', 0⟩ none 0 c'.literals b' s.lastLine, c'.strings.reverse⟩,
      compileTokens_of_spelled hgood hspelled ?_, ?_, hmain⟩
    · exact Script.program?_eq_some_iff.mpr ⟨b', c', hb', rfl⟩
    · exact congrArg List.reverse hc.strings

end EntityScript
