/-
# Scripts of functions

A script can consist of nothing but functions.  Its code is then the same for all of them: an
instruction that makes the function, and one that gives it its name (`Declares`).  What it leaves is
these functions, in order, and their names (`Context.Leaves`).
-/
import EntityScript.Proofs.Script.Globals

namespace EntityScript

/-- A declaration of a function. -/
def Clause.isFunction : Clause → Bool
  | .function .. => true
  | _ => false

/-- Some code makes the given functions and gives them their names, one after the other. -/
inductive Declares (ls : List Literal) : List Function → List Placed → Prop where
  | nil : Declares ls [] []
  | cons {f : Function} {fs : List Function} {x : String} {code : List Placed}
      {index place line : Nat} :
    ls[index]? = some (.function f) → f.name = some x → ls[place]? = some (.string x) →
    Declares ls fs code →
    Declares ls (f :: fs) (⟨.literal index, line⟩ :: ⟨.defineGlobal place, line⟩ :: code)

namespace Declares

variable {ls ls' : List Literal} {fs gs : List Function} {code code' : List Placed}

/-- The functions stay where they are when literals are added. -/
theorem mono (h : Declares ls fs code) (hls : ls <+: ls') : Declares ls' fs code := by
  obtain ⟨more, rfl⟩ := hls
  induction h with
  | nil => exact .nil
  | cons hf hname hx _ ih =>
    exact .cons (getElem?_append_of_some hf) hname (getElem?_append_of_some hx) ih

theorem append (h : Declares ls fs code) (h' : Declares ls gs code') :
    Declares ls (fs ++ gs) (code ++ code') := by
  induction h with
  | nil => exact h'
  | cons hf hname hx _ ih => exact .cons hf hname hx ih

/-- Each function is made by one instruction and named by another. -/
theorem length_eq (h : Declares ls fs code) : code.length = 2 * fs.length := by
  induction h with
  | nil => rfl
  | cons _ _ _ _ ih =>
    rw [List.length_cons, List.length_cons, List.length_cons, ih]
    rfl

/-- The functions are among the literals. -/
theorem mem (h : Declares ls fs code) {f : Function} (hf : f ∈ fs) :
    .function f ∈ ls ∧ ∃ x, f.name = some x := by
  induction h with
  | nil => cases hf
  | cons hl hname _ _ ih =>
    rcases List.mem_cons.mp hf with rfl | hf
    · exact ⟨List.mem_of_getElem? hl, _, hname⟩
    · exact ih hf

end Declares

namespace Context

/-- Between two contexts the given functions have been declared, outside all blocks, by some
code. -/
structure Leaves (c c' : Context) (fs : List Function) (code : List Placed) : Prop where
  declares : Declares c'.literals fs code
  literals : ∃ more, c'.literals = c.literals ++ more ∧ more.filterMap Literal.function? = fs
  scope : c'.scope = c.scope
  globals : ∀ x, x ∈ c'.globals ↔ x ∈ c.globals ∨ ∃ f ∈ fs, f.name = some x

variable {c c' d : Context} {fs gs : List Function} {code code' : List Placed} {x : String}

theorem Leaves.refl (c : Context) : Leaves c c [] [] :=
  ⟨.nil, ⟨[], (List.append_nil _).symm, rfl⟩, rfl, fun x => by simp⟩

/-- Declarations in two parts. -/
theorem Leaves.trans (h : Leaves c d fs code) (k : Leaves d c' gs code') :
    Leaves c c' (fs ++ gs) (code ++ code') := by
  obtain ⟨ls, hls, hfs⟩ := h.literals
  obtain ⟨ms, hms, hgs⟩ := k.literals
  refine ⟨(h.declares.mono (hms ▸ List.prefix_append _ _)).append k.declares, ⟨ls ++ ms, ?_, ?_⟩,
    k.scope.trans h.scope, fun x => ?_⟩
  · rw [hms, hls, List.append_assoc]
  · rw [List.filterMap_append, hfs, hgs]
  · rw [k.globals, h.globals, or_assoc]
    simp only [List.mem_append, or_and_right, exists_or]

/-- Outside all blocks a definition opens and closes none. -/
theorem define?_scope {v : Variable} (hdepth : c.scope.depth = 0) (h : c.define? x = some (v, d)) :
    d.scope = c.scope := by
  rw [define?, if_pos hdepth] at h
  obtain ⟨⟨index, e⟩, he, hv⟩ := Option.map_eq_some_iff.mp h
  obtain ⟨-, rfl⟩ := Prod.mk.inj hv
  obtain ⟨more, hadds, -⟩ := nameLiteral?_adds he
  exact hadds.scope

end Context

open Context

section

variable {ts : List Token} {c c' : Context}

/-- What the declaration of a function leaves outside all blocks. -/
theorem Spells.leaves_function {site : Nat} {x : String} {ps : List String} {ss : List Clause}
    {line : Nat} {t : Stmt} (hss : Spells ts (.sequence ss)) (hdepth : c.scope.depth = 0)
    (h : (Clause.function site x ps ss line).elaborate c = some (t, c')) :
    ∃ f : Function, Leaves c c' [f] t.postorder := by
  cases Clause.derives_iff.mpr h with
  | @function _ _ _ _ outer _ b inner _ d _ _ houter _ hopened hb hclose hv =>
    rw [declareFunction?, if_pos hdepth] at houter
    obtain rfl := Option.some.inj houter
    -- no global is declared inside the body
    obtain ⟨new, rfl, -, -⟩ := declareAll?_spec (by simp [openFunction, Scope.enter]) hopened
    obtain ⟨code, -, hsettles, -⟩ := hss.orders hb
    have hinner := (hsettles Nat.one_ne_zero).globals
    obtain ⟨hliterals, hindex, hglobals, hscope⟩ := closeFunction?_knows hclose
    have hdepth' : d.scope.depth = 0 := by
      rw [hscope]
      exact hdepth
    obtain ⟨place, more, hplace, hliterals', hmore, hplaced, hglobals', -⟩ :=
      define?_global hdepth' hv
    obtain ⟨f, hf⟩ : ∃ f, f = Function.ofBody ⟨inner.unit, inner.serial⟩
      (some x) ps.length inner.literals b line :=
      ⟨_, rfl⟩
    have hname : f.name = some x := by rw [hf, Function.ofBody]
    rw [← hf] at hliterals hindex
    refine ⟨f, ?_, ⟨.function f :: more, ?_, ?_⟩, (define?_scope hdepth' hv).trans hscope,
      fun y => ?_⟩
    · rw [Stmt.postorder, hplace]
      refine .cons ?_ hname hplaced .nil
      rw [hliterals']
      exact getElem?_append_of_some hindex
    · rw [hliterals', hliterals, List.append_assoc]
      rfl
    · rw [List.filterMap_cons, Literal.function?, List.filterMap_eq_nil_iff.mpr hmore]
    · rw [hglobals', hglobals, hinner]
      show y ∈ (c.globals.insert x).insert x ↔ _
      simp [hname, or_comm, eq_comm]

/-- What a script of functions leaves. -/
theorem Spells.leaves {ss : List Clause} (hfunctions : ∀ s ∈ ss, s.isFunction = true)
    (h : Spells ts (.sequence ss)) {read b : Block} (hdepth : c.scope.depth = 0)
    (he : Clause.elaborateAll ss read c = some (b, c')) :
    ∃ fs code, b.postorder = read.postorder ++ code ∧ Leaves c c' fs code := by
  induction ss generalizing ts c read with
  | nil =>
    obtain ⟨rfl, rfl⟩ := Prod.mk.inj (Option.some.inj he)
    exact ⟨[], [], (List.append_nil _).symm, .refl c⟩
  | cons s ss ih =>
    cases h with
    | more hs hss =>
      cases Clause.derivesAll_iff.mpr he with
      | @cons _ _ _ t d _ ht hts =>
        obtain ⟨f, hleaves⟩ : ∃ f : Function, Leaves c d [f] t.postorder := by
          have hs' := hfunctions s List.mem_cons_self
          cases hs with
          | function _ _ _ _ _ _ hbody => exact hbody.leaves_function hdepth ht
          | functionWith _ _ _ _ _ _ _ hbody => exact hbody.leaves_function hdepth ht
          | declare | declareWith => cases hs'
          | ofStatement hs => cases hs <;> cases hs'
        obtain ⟨fs, code, hcode, hrest⟩ := ih
          (fun s hs => hfunctions s (List.mem_cons_of_mem _ hs)) hss
          (by rw [hleaves.scope, hdepth]) hts
        refine ⟨f :: fs, t.postorder ++ code, ?_, hleaves.trans hrest⟩
        rw [hcode, Block.postorder, List.append_assoc]

end

/-- What has been read before does not matter to the statements that follow. -/
theorem Clause.elaborateAll_after {ss : List Clause} {read b : Block} {c c' : Context}
    (h : Clause.elaborateAll ss read c = some (b, c')) (read' : Block) :
    ∃ code b', Clause.elaborateAll ss read' c = some (b', c') ∧
    b.postorder = read.postorder ++ code ∧
      b'.postorder = read'.postorder ++ code := by
  induction ss generalizing c read read' with
  | nil =>
    obtain ⟨rfl, rfl⟩ := Prod.mk.inj (Option.some.inj h)
    exact ⟨[], read', rfl, (List.append_nil _).symm, (List.append_nil _).symm⟩
  | cons s ss ih =>
    cases Clause.derivesAll_iff.mpr h with
    | @cons _ _ _ t d _ ht hts =>
      obtain ⟨code, b', hb', hcode, hcode'⟩ := ih hts (read'.append t)
      refine ⟨t.postorder ++ code, b', Clause.derivesAll_iff.mp (.cons ht hb'), ?_, ?_⟩
      · rw [hcode, Block.postorder, List.append_assoc]
      · rw [hcode', Block.postorder, List.append_assoc]

end EntityScript
