/-
# Resolved statements fit

The trees that the static rules give the statements of a script fit the functions they belong to,
and so do the bodies of all functions that the script declares.  The induction is on the spelling of
the script: it is the grammar that keeps declarations out of the bodies of conditionals and loops.
-/
import EntityScript.Proofs.Script.Grammar
import EntityScript.Proofs.Script.Resolution

namespace EntityScript

open Context

/-- What resolving a sentence does: the trees fit, and the scope changes by the locals they
declare. -/
def Sentence.Resolves : Sentence → Prop
  | .statement s => ∀ ⦃c c' : Context⦄ ⦃t : Stmt⦄, c.scope.Tidy → s.elaborate c = some (t, c') →
      ∃ more, Compiles c c' more t.bodies ∧ c'.scope = c.scope ∧ t.locals = 0 ∧
        t.Fits c.scope.locals.length c'.literals
  | .declaration s => ∀ ⦃c c' : Context⦄ ⦃t : Stmt⦄, c.scope.Tidy → s.elaborate c = some (t, c') →
      ∃ more, ∃ new : List Local, Compiles c c' more t.bodies ∧
        c'.scope = ⟨new ++ c.scope.locals, c.scope.depth⟩ ∧ new.length = t.locals ∧
        (∀ l ∈ new, l.depth = some c.scope.depth) ∧ t.Fits c.scope.locals.length c'.literals
  | .sequence ss => ∀ ⦃c c' : Context⦄ ⦃read b : Block⦄ ⦃base : Nat⦄, c.scope.Tidy →
      read.Fits base c.literals → base + read.locals = c.scope.locals.length →
      Clause.elaborateAll ss read c = some (b, c') →
      read.bodies ⊆ b.bodies ∧ ∃ more, ∃ new : List Local, Compiles c c' more b.bodies ∧
        c'.scope = ⟨new ++ c.scope.locals, c.scope.depth⟩ ∧
        (∀ l ∈ new, l.depth = some c.scope.depth) ∧ b.Fits base c'.literals ∧
        base + b.locals = c'.scope.locals.length

namespace Sentence

/-- A statement that is one expression and some instructions. -/
theorem resolves_term {s : Clause} {e : Term} {f : Expr → Stmt}
    (he : ∀ c, s.elaborate c = (e.elaborate true c).map fun (t, c') => (f t, c'))
    (hlocals : ∀ t, (f t).locals = 0)
    (hfits : ∀ t n ls, Expr.Fits n ls t → (f t).Fits n ls) : Resolves (.statement s) := by
  intro c c' t hs h
  rw [he] at h
  obtain ⟨⟨x, d⟩, hx, h⟩ := Option.map_eq_some_iff.mp h
  obtain ⟨rfl, rfl⟩ := Prod.mk.inj h
  obtain ⟨more, hadds, hfx⟩ := e.elaborate_fits hs.readable hx
  exact ⟨more, hadds.compiles _, hadds.scope, hlocals x, hfits x _ _ hfx⟩

/-- A conditional fits as its condition and its body do. -/
theorem resolves_ifThen {cond : Term} {line : Nat} {body : Clause}
    (ih : Resolves (.statement body)) : Resolves (.statement (.ifThen cond line body)) := by
  intro c c' t hs h
  cases Clause.derives_iff.mpr h with
  | ifThen ht hb =>
    obtain ⟨ls, hadds, hft⟩ := cond.elaborate_fits hs.readable ht
    obtain ⟨ms, hcomp, hscope, hlocals, hfb⟩ := ih (by rw [hadds.scope]; exact hs) hb
    rw [hadds.scope] at hscope hfb
    exact ⟨_, (hadds.compiles _).trans hcomp, hscope, rfl, hcomp.expr hft, hfb, hlocals⟩

/-- Both branches are resolved in the same scope. -/
theorem resolves_ifElse {cond : Term} {line : Nat} {body other : Clause}
    (ih : Resolves (.statement body)) (ih' : Resolves (.statement other)) :
    Resolves (.statement (.ifElse cond line body other)) := by
  intro c c' t hs h
  cases Clause.derives_iff.mpr h with
  | ifElse ht hb _ ho =>
    obtain ⟨ls, hadds, hft⟩ := cond.elaborate_fits hs.readable ht
    obtain ⟨ms, hcomp, hscope, hlocals, hfb⟩ := ih (by rw [hadds.scope]; exact hs) hb
    rw [hadds.scope] at hscope hfb
    obtain ⟨ns, hcomp', hscope', hlocals', hfo⟩ := ih' (by rw [hscope]; exact hs) ho
    rw [hscope] at hscope' hfo
    have hall := ((hadds.compiles _).trans (hcomp.mono (List.subset_append_left _ _))).trans
      (hcomp'.mono (List.subset_append_right _ _))
    exact ⟨_, hall, hscope', rfl, hcomp'.expr (hcomp.expr hft),
      ⟨hcomp'.stmt hfb, hlocals⟩, hfo, hlocals'⟩

/-- A loop fits as its condition and its body do. -/
theorem resolves_loop {cond : Term} {line : Nat} {body : Clause}
    (ih : Resolves (.statement body)) : Resolves (.statement (.loop cond line body)) := by
  intro c c' t hs h
  cases Clause.derives_iff.mpr h with
  | loop ht hb =>
    obtain ⟨ls, hadds, hft⟩ := cond.elaborate_fits hs.readable ht
    obtain ⟨ms, hcomp, hscope, hlocals, hfb⟩ := ih (by rw [hadds.scope]; exact hs) hb
    rw [hadds.scope] at hscope hfb
    exact ⟨_, (hadds.compiles _).trans hcomp, hscope, rfl, hcomp.expr hft, hfb, hlocals⟩

/-- At the end of a block the scope is the one in front of it, without the locals of the block. -/
theorem resolves_block {ss : List Clause} {line : Nat} (ih : Resolves (.sequence ss)) :
    Resolves (.statement (.block ss line)) := by
  intro c c' t hs h
  cases Clause.derives_iff.mpr h with
  | @block _ _ b d hb =>
    have hempty : Block.empty.Fits c.scope.locals.length c.enter.literals := trivial
    obtain ⟨-, more, new, hcomp, hscope, hnew, hfb, hlocals⟩ :=
      ih hs.enter hempty (Nat.add_zero _) hb
    have hleave : d.scope.leave = (new.length, c.scope) := by
      rw [hscope]
      exact hs.leave hnew
    refine ⟨more, ?_, ?_, rfl, hfb, ?_⟩
    · exact ⟨hcomp.literals, hcomp.fitting, hcomp.numbered, hcomp.unit, hcomp.serial⟩
    · show d.scope.leave.2 = c.scope
      rw [hleave]
    · rw [hleave]
      rw [hscope, List.length_append] at hlocals
      simp only [Context.enter, Scope.enter] at hlocals
      show new.length = b.locals
      omega

/-- A statement among declarations leaves no locals. -/
theorem resolves_ofStatement {s : Clause} (ih : Resolves (.statement s)) :
    Resolves (.declaration s) := by
  intro c c' t hs h
  obtain ⟨more, hcomp, hscope, hlocals, hfits⟩ := ih hs h
  exact ⟨more, [], hcomp, hscope, hlocals.symm, by simp, hfits⟩

/-- The first value of a variable is resolved before the variable can be read. -/
theorem value?_fits {c c' : Context} {line n : Nat} {init : Option Term} {t : Expr}
    (hs : c.scope.Readable n) (h : c.value? line init = some (t, c')) :
    ∃ more, Adds c c' more ∧ t.Fits n c'.literals := by
  cases init with
  | none =>
    obtain ⟨rfl, rfl⟩ := Prod.mk.inj (Option.some.inj h)
    exact ⟨[], .refl c, trivial⟩
  | some e => exact e.elaborate_fits hs h

/-- A return fits a function wherever its value does. -/
theorem resolves_ret {value : Option Term} {line : Nat} :
    Resolves (.statement (.ret value line)) := by
  intro c c' t hs h
  cases Clause.derives_iff.mpr h with
  | ret ht =>
    obtain ⟨more, hadds, hft⟩ := value?_fits hs.readable ht
    exact ⟨more, hadds.compiles _, hadds.scope, rfl, hft⟩

/-- A local that is declared gets the next slot when it has its value. -/
theorem resolves_declare {x : String} {nameLine line : Nat} {init : Option Term} :
    Resolves (.declaration (.declare x nameLine init line)) := by
  intro c c' t hs h
  cases Clause.derives_iff.mpr h with
  | @declare _ _ _ _ _ _ d' _ _ hd ht hv =>
    rcases declare?_spec hd with ⟨hdepth, rfl⟩ | ⟨hdepth, rfl⟩
    · -- a global
      obtain ⟨ls, hadds, hft⟩ := value?_fits hs.readable ht
      rcases define?_spec hv with ⟨-, ⟨ms, hadds', hfv⟩, hlocals, -⟩ | ⟨hdepth', -⟩
      · refine ⟨_, [], (hadds.trans hadds').compiles _, ?_,
          hlocals.symm, by simp, hadds'.expr hft, ?_⟩
        · rw [hadds'.scope, hadds.scope]
          rfl
        · rw [hadds.scope] at hfv
          exact hfv
      · rw [hadds.scope] at hdepth'
        exact absurd hdepth hdepth'
    · -- a local, on top of those in sight
      have hread : Scope.Readable ⟨⟨x, none⟩ :: c.scope.locals, c.scope.depth⟩
          c.scope.locals.length := by
        obtain ⟨ls, hls⟩ := hs.bottom
        exact ⟨⟨[⟨x, none⟩], c.scope.locals, rfl, rfl, by simp⟩, ⟨x, none⟩ :: ls, by simp [hls]⟩
      obtain ⟨ls, hadds, hft⟩ := value?_fits hread ht
      rcases define?_spec hv with ⟨hdepth', -⟩ | ⟨-, rfl, rfl⟩
      · rw [hadds.scope] at hdepth'
        exact absurd hdepth' hdepth
      · have hscope : d'.scope = ⟨⟨x, none⟩ :: c.scope.locals, c.scope.depth⟩ := hadds.scope
        have hcomp := hadds.compiles []
        refine ⟨ls, [⟨x, some c.scope.depth⟩], ?_, ?_, rfl, by simp, hft, ?_⟩
        · exact ⟨hcomp.literals, hcomp.fitting, hcomp.numbered, hcomp.unit, hcomp.serial⟩
        · rw [hscope]
          rfl
        · simp [Variable.FitsNew, hscope]

/-- A function that is closed becomes a literal of the function around it. -/
theorem compiles_closeFunction {inner outer d : Context} {body : Block} {x : String}
    {ps : List String} {line index : Nat} {more : List Literal}
    (hinner : Compiles { outer with scope := Scope.start.enter, literals := [] } inner more
      body.bodies)
    (hbody : body.Fits (1 + ps.length) inner.literals)
    (h : inner.closeFunction? outer (.ofBody ⟨inner.unit, inner.serial⟩ (some x) ps.length
      inner.literals body line) = some (index, d)) :
    (∃ ms, Compiles outer d ms (body :: body.bodies)) ∧ d.scope = outer.scope ∧
      d.literals[index]? = some (.function (.ofBody ⟨inner.unit, inner.serial⟩ (some x) ps.length
        inner.literals body line)) := by
  unfold closeFunction? at h
  obtain ⟨hls, hi, hsc, hu, hn⟩ := addLiteral?_spec h
  have hmore : inner.literals = more := by simpa using hinner.literals
  refine ⟨⟨_, hls, ?_, ?_, ?_, ?_⟩, hsc, hi⟩
  · intro f hf
    rw [Literal.familyAll, Literal.familyAll, List.append_nil, Literal.family,
      Function.family_eq] at hf
    rcases List.mem_cons.mp hf with rfl | hf
    · exact ⟨body, List.mem_cons_self, hbody, line, rfl⟩
    · rw [Function.ofBody, hmore] at hf
      exact (hinner.fitting f hf).mono (List.subset_cons_self _ _)
  · rw [Literal.familyAll, Literal.familyAll, List.append_nil, Literal.family,
      Function.family_eq, hn]
    -- the new function has the next number, above those of the functions inside it
    have hnum := hinner.numbered
    refine ⟨?_, ?_⟩
    · intro f hf
      rcases List.mem_cons.mp hf with rfl | hf
      · exact ⟨hinner.unit, hinner.serial, Nat.lt_succ_self _⟩
      · rw [Function.ofBody, hmore] at hf
        obtain ⟨hfu, hfl, hfr⟩ := hnum.within f hf
        exact ⟨hfu, hfl, Nat.lt_succ_of_lt hfr⟩
    · rw [List.pairwise_cons]
      rw [Function.ofBody, hmore]
      refine ⟨?_, hnum.distinct⟩
      intro g hg
      have hlt := (hnum.within g hg).2.2
      simp only
      omega
  · rw [hu]
    exact hinner.unit
  · rw [hn]
    exact Nat.le_succ_of_le hinner.serial

/-- The body of a function is resolved in a scope of its own, whose first slot is that of the
function. -/
theorem resolves_function {site : Nat} {x : String} {ps : List String} {ss : List Clause}
    {line : Nat} (ih : Resolves (.sequence ss)) :
    Resolves (.declaration (.function site x ps ss line)) := by
  intro c c' t hs h
  cases Clause.derives_iff.mpr h with
  | @function _ _ _ _ outer _ b inner _ d _ _ houter _ hopened hb hclose hv =>
    -- the body, in a scope of its own
    obtain ⟨new, rfl, hnames, hnew⟩ := declareAll?_spec
      (by simp [openFunction, Scope.enter]) hopened
    have hlen : new.length = ps.length := by simpa using congrArg List.length hnames
    have htidy : Scope.Tidy ⟨new ++ Scope.start.locals, 1⟩ := Scope.tidy_start.enter.append hnew
    have hempty : Block.empty.Fits (1 + ps.length) [] := trivial
    have hbase : 1 + ps.length + Block.empty.locals = (new ++ Scope.start.locals).length := by
      simp [Block.locals, Scope.start, hlen]
      omega
    obtain ⟨-, more, new', hcomp, -, -, hfb, -⟩ := ih htidy hempty hbase hb
    have hcomp' : Compiles { outer with scope := Scope.start.enter, literals := [] } inner
      more b.bodies :=
      ⟨hcomp.literals, hcomp.fitting, hcomp.numbered, hcomp.unit, hcomp.serial⟩
    obtain ⟨⟨ms, hms⟩, hscope, hindex⟩ := compiles_closeFunction hcomp' hfb hclose
    -- the name, outside all blocks or in one
    rcases declareFunction?_spec houter with ⟨hdepth, rfl⟩ | ⟨hdepth, rfl⟩
    · have hms' : Compiles c d ms (b :: b.bodies) :=
        ⟨hms.literals, hms.fitting, hms.numbered, hms.unit, hms.serial⟩
      rcases define?_spec hv with ⟨-, ⟨ns, hadds, hfv⟩, hlocals, hname⟩ | ⟨hdepth', -⟩
      · refine ⟨_, [], hms'.trans (hadds.compiles _), ?_, hlocals.symm, by simp, ?_,
          ⟨inner.unit, inner.serial⟩, inner.literals, ?_, hfb⟩
        · rw [hadds.scope, hscope]
          rfl
        · rw [hscope] at hfv
          exact hfv
        · rw [hadds.literals, hname]
          exact getElem?_append_of_some hindex
      · rw [hscope] at hdepth'
        exact absurd hdepth hdepth'
    · have hms' : Compiles c d ms (b :: b.bodies) :=
        ⟨hms.literals, hms.fitting, hms.numbered, hms.unit, hms.serial⟩
      rcases define?_spec hv with ⟨hdepth', -⟩ | ⟨-, rfl, rfl⟩
      · rw [hscope] at hdepth'
        exact absurd hdepth' hdepth
      · refine ⟨ms, [⟨x, some c.scope.depth⟩], ?_, ?_,
          rfl, by simp, ?_, _, inner.literals, hindex, hfb⟩
        · exact ⟨hms'.literals, hms'.fitting, hms'.numbered, hms'.unit, hms'.serial⟩
        · rw [hscope]
          rfl
        · simp [Variable.FitsNew, hscope]

theorem resolves_none : Resolves (.sequence []) := by
  intro c c' read b base hs hread hbase h
  obtain ⟨rfl, rfl⟩ := Prod.mk.inj (Option.some.inj h)
  exact ⟨fun _ h => h, [], [], .of_eq rfl rfl rfl _, rfl, by simp, hread, hbase⟩

/-- The locals of a declaration are below those of the declarations after it. -/
theorem resolves_more {s : Clause} {ss : List Clause} (ih : Resolves (.declaration s))
    (ihs : Resolves (.sequence ss)) : Resolves (.sequence (s :: ss)) := by
  intro c c' read b base hs hread hbase h
  cases Clause.derivesAll_iff.mpr h with
  | @cons _ _ _ t d _ ht hts =>
    obtain ⟨ls, new, hcomp, hscope, hlen, hnew, hft⟩ := ih hs ht
    have htidy : d.scope.Tidy := by
      rw [hscope]
      exact hs.append hnew
    have hfits : (read.append t).Fits base d.literals :=
      ⟨hcomp.block hread, by rw [hbase]; exact hft⟩
    have hbase' : base + (read.append t).locals = d.scope.locals.length := by
      rw [hscope, Block.locals, List.length_append]
      omega
    obtain ⟨hsub, ms, new', hcomp', hscope', hnew', hfb, hlocals⟩ := ihs htidy hfits hbase' hts
    rw [Block.bodies] at hsub
    rw [hscope] at hscope' hnew'
    have hcomp'' := hcomp.mono (List.Subset.trans (List.subset_append_right _ _) hsub)
    refine ⟨List.Subset.trans (List.subset_append_left _ _) hsub, _, new' ++ new,
      hcomp''.trans hcomp', ?_, ?_, hfb, hlocals⟩
    · rw [hscope', List.append_assoc]
    · intro l hl
      rcases List.mem_append.mp hl with hl | hl
      · exact hnew' l hl
      · exact hnew l hl

end Sentence

/-- Resolving a sentence that the grammar spells gives trees that fit. -/
theorem Spells.resolves {ts : List Token} {σ : Sentence} (h : Spells ts σ) : σ.Resolves := by
  induction h with
  | @expr semi _ e =>
    refine Sentence.resolves_term (e := e) (f := (.expr · semi.line)) (fun c => ?_) (fun _ => rfl)
      (fun _ _ _ hx => hx)
    rw [Clause.elaborate, Option.map_eq_bind]
    rfl
  | @print _ semi _ e =>
    refine Sentence.resolves_term (e := e) (f := (.print · semi.line)) (fun c => ?_) (fun _ => rfl)
      (fun _ _ _ hx => hx)
    rw [Clause.elaborate, Option.map_eq_bind]
    rfl
  | ifThen _ _ _ _ _ ih => exact Sentence.resolves_ifThen ih
  | ifElse _ _ _ _ _ _ _ _ ih ih' => exact Sentence.resolves_ifElse ih ih'
  | loop _ _ _ _ _ ih => exact Sentence.resolves_loop ih
  | ret | retWith => exact Sentence.resolves_ret
  | yield | stop =>
    intro c c' t hs h
    rw [Clause.elaborate] at h
    obtain ⟨rfl, rfl⟩ := Prod.mk.inj (Option.some.inj h)
    exact ⟨[], .of_eq rfl rfl rfl _, rfl, rfl, trivial⟩
  | block _ _ _ ih => exact Sentence.resolves_block ih
  | ofStatement _ ih => exact Sentence.resolves_ofStatement ih
  | declare | declareWith => exact Sentence.resolves_declare
  | function _ _ _ _ _ _ _ _ ih => exact Sentence.resolves_function ih
  | functionWith _ _ _ _ _ _ _ _ _ ih => exact Sentence.resolves_function ih
  | none => exact Sentence.resolves_none
  | more _ _ ih ihs => exact Sentence.resolves_more ih ihs

end EntityScript
