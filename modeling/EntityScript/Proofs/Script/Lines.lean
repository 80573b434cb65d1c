/-
# Lines of compiled code

Every instruction is attributed to the line of a token of its script.  A node of a script keeps
lines of its own tokens (`Spells.onLines`), the code of a resolved tree is on the lines of the node
that it comes from (`Clause.elaborate_lines`), and the tokens of a source are on lines that the
source has (`Made.lines`).  So the code of a compiled program, that of all its functions included,
is on lines of its source (`lines_of_compile`).
-/
import EntityScript.Proofs.Compile.Library
import EntityScript.Proofs.Token.Lexemes

namespace EntityScript

open Context

/-- All instructions are on lines with a property. -/
def AllOn (P : Nat → Prop) (code : List Placed) : Prop :=
  ∀ q ∈ code, P q.line

section

variable {P : Nat → Prop} {line : Nat} {i : Instruction} {code more : List Placed}

@[simp] theorem allOn_nil : AllOn P [] :=
  List.forall_mem_nil _

@[simp] theorem allOn_cons : AllOn P (⟨i, line⟩ :: code) ↔ P line ∧ AllOn P code :=
  List.forall_mem_cons

@[simp] theorem allOn_append : AllOn P (code ++ more) ↔ AllOn P code ∧ AllOn P more :=
  List.forall_mem_append

/-- Instructions that are placed on a line are on it. -/
theorem allOn_placeOn (h : P line) (is : List Instruction) : AllOn P (placeOn line is) := by
  intro q hq
  obtain ⟨i, -, rfl⟩ := List.mem_map.mp hq
  exact h

theorem allOn_replicate (h : P line) (n : Nat) : AllOn P (List.replicate n ⟨i, line⟩) := by
  intro q hq
  rw [List.eq_of_mem_replicate hq]
  exact h

end

/-! ## Lines of a script -/

mutual

/-- All lines that an expression keeps have a property. -/
def Term.OnLines (P : Nat → Prop) : Term → Prop
  | .nil line | .bool _ line | .number _ line | .string _ line | .name _ line => P line
  | .assign _ value | .assignMember _ _ value => value.OnLines P
  | .group e line | .member e _ line => e.OnLines P ∧ P line
  | .unary _ e => e.OnLines P
  | .binary _ lhs rhs => lhs.OnLines P ∧ rhs.OnLines P
  | .call callee arguments line => callee.OnLines P ∧ Term.OnLinesAll P arguments ∧ P line

/-- All lines that several expressions keep have a property. -/
def Term.OnLinesAll (P : Nat → Prop) : List Term → Prop
  | [] => True
  | e :: es => e.OnLines P ∧ Term.OnLinesAll P es

end

/-- An expression that need not be there. -/
def Term.OnLines? (P : Nat → Prop) (e : Option Term) : Prop :=
  ∀ t, e = some t → t.OnLines P

mutual

/-- All lines that a statement or a declaration keeps have a property. -/
def Clause.OnLines (P : Nat → Prop) : Clause → Prop
  | .expr e line | .print e line => e.OnLines P ∧ P line
  | .declare _ nameLine init line => P nameLine ∧ Term.OnLines? P init ∧ P line
  | .function _ _ _ body line | .block body line => Clause.OnLinesAll P body ∧ P line
  | .ifThen cond line body | .loop cond line body => cond.OnLines P ∧ P line ∧ body.OnLines P
  | .ifElse cond line body other => cond.OnLines P ∧ P line ∧ body.OnLines P ∧ other.OnLines P
  | .ret value line => Term.OnLines? P value ∧ P line
  | .yield line | .stop line => P line

/-- All lines that several statements and declarations keep have a property. -/
def Clause.OnLinesAll (P : Nat → Prop) : List Clause → Prop
  | [] => True
  | s :: ss => s.OnLines P ∧ Clause.OnLinesAll P ss

end

def Phrase.OnLines (P : Nat → Prop) : Phrase → Prop
  | .expr _ e => e.OnLines P
  | .arguments es => Term.OnLinesAll P es

def Sentence.OnLines (P : Nat → Prop) : Sentence → Prop
  | .statement s | .declaration s => s.OnLines P
  | .sequence ss => Clause.OnLinesAll P ss

section

variable {P : Nat → Prop} {ts : List Token}

theorem Term.lastLine_of_onLines {e : Term} (h : e.OnLines P) : P e.lastLine := by
  induction e using Term.lastLine.induct <;> simp_all [Term.OnLines, Term.lastLine]

theorem Clause.lastLine_of_onLines {s : Clause} (h : s.OnLines P) : P s.lastLine := by
  induction s using Clause.lastLine.induct <;> simp_all [Clause.OnLines, Clause.lastLine]

/-- An expression keeps lines of its tokens. -/
theorem Derives.onLines {φ : Phrase} (h : Derives ts φ) (hts : ∀ t ∈ ts, P t.line) :
    φ.OnLines P := by
  induction h with
  | nil | yes | no | number | string | name => exact hts _ (List.mem_singleton_self _)
  | group | member | call | callWith | unary | binary | assign | assignMember | stronger | last
  | more =>
    simp_all [Phrase.OnLines, Term.OnLines, Term.OnLinesAll, or_imp]

/-- A script keeps lines of its tokens. -/
theorem Spells.onLines {σ : Sentence} (h : Spells ts σ) (hts : ∀ t ∈ ts, P t.line) :
    σ.OnLines P := by
  induction h with
  | expr he | print _ he | retWith _ he | declareWith _ _ _ he =>
    have hon := he.onLines (P := P)
    simp_all [Sentence.OnLines, Clause.OnLines, Term.OnLines?, Phrase.OnLines, or_imp]
  | ifThen _ _ he | ifElse _ _ he | loop _ _ he =>
    have hon := he.onLines (P := P)
    simp_all [Sentence.OnLines, Clause.OnLines, Phrase.OnLines, or_imp]
  | ret | yield | stop | block | ofStatement | declare | function | functionWith | none | more =>
    simp_all [Sentence.OnLines, Clause.OnLines, Clause.OnLinesAll, Term.OnLines?, or_imp]

end

/-! ## Lines of resolved expressions -/

namespace Context

theorem Adds.family {c c' : Context} {more : List Literal} (h : Adds c c' more) :
    Literal.familyAll c'.literals = Literal.familyAll c.literals := by
  rw [h.literals, Literal.familyAll_append, Literal.familyAll_of_plain h.plain, List.append_nil]

/-- Resolving a name adds none. -/
theorem resolve?_family {c c' : Context} {x : String} {v : Variable}
    (h : c.resolve? x = some (v, c')) :
    Literal.familyAll c'.literals = Literal.familyAll c.literals := by
  cases Variable.derives_iff.mpr h with
  | slot => rfl
  | global _ _ _ hl =>
    obtain ⟨more, hadds, -⟩ := nameLiteral?_adds hl
    exact hadds.family

end Context

section

variable {P : Nat → Prop}

mutual

/-- The code of an expression is on its lines, and there are no new functions. -/
theorem Term.elaborate_lines {c c' : Context} {head : Bool} {t : Expr} (e : Term) (he : e.OnLines P)
    (h : e.elaborate head c = some (t, c')) :
    AllOn P t.postorder ∧ Literal.familyAll c'.literals = Literal.familyAll c.literals := by
  match e, Term.derives_iff.mpr h with
  | _, .nil | _, .bool => exact ⟨by simpa [Expr.postorder, Term.OnLines] using he, rfl⟩
  | _, .int _ hl | _, .float _ hl | _, .string hl =>
    exact ⟨by simpa [Expr.postorder, Term.OnLines] using he, (addLiteral?_adds hl rfl).1.family⟩
  | _, .name hv => exact ⟨by simpa [Expr.postorder, Term.OnLines] using he, resolve?_family hv⟩
  | .assign _ value, .assign hv ht | .assignMember _ _ value, .assignMember hv _ ht =>
    obtain ⟨hon, hfamily⟩ := value.elaborate_lines he ht
    have hlast := Term.lastLine_of_onLines (e := value) he
    exact ⟨by simp [Expr.postorder, hon, hlast], hfamily.trans (resolve?_family hv)⟩
  | .group e _, .group ht => exact e.elaborate_lines he.1 ht
  | _, .memberOfName hv _ =>
    -- a variable is read on the line of its member
    exact ⟨by simp [Expr.postorder, he.2], resolve?_family hv⟩
  | .member e _ _, .member _ ht _ =>
    obtain ⟨hon, hfamily⟩ := e.elaborate_lines he.1 ht
    exact ⟨by simp [Expr.postorder, hon, he.2], hfamily⟩
  | .unary _ e, .unary ht =>
    obtain ⟨hon, hfamily⟩ := e.elaborate_lines he ht
    have hlast := Term.lastLine_of_onLines (e := e) he
    exact ⟨by simp [Expr.postorder, hon, hlast], hfamily⟩
  | .binary op lhs rhs, .binary hl hr =>
    obtain ⟨hon, hfamily⟩ := lhs.elaborate_lines he.1 hl
    obtain ⟨hon', hfamily'⟩ := rhs.elaborate_lines he.2 hr
    have hlast := allOn_placeOn (Term.lastLine_of_onLines he.2) op.instructions
    exact ⟨by simp [Expr.postorder, hon, hon', hlast], hfamily'.trans hfamily⟩
  | .call callee arguments _, .call hf hts _ =>
    obtain ⟨hcallee, harguments, hline⟩ := he
    obtain ⟨hon, hfamily⟩ := callee.elaborate_lines hcallee hf
    obtain ⟨hon', hfamily'⟩ := Term.elaborateAll_lines arguments harguments hts
    exact ⟨by simp [Expr.postorder, hon, hon', hline], hfamily'.trans hfamily⟩

/-- The code of arguments is on their lines. -/
theorem Term.elaborateAll_lines {c c' : Context} {ts : List Expr} (es : List Term)
    (hes : Term.OnLinesAll P es) (h : Term.elaborateAll es c = some (ts, c')) :
    AllOn P (Expr.postorderAll ts) ∧
    Literal.familyAll c'.literals = Literal.familyAll c.literals := by
  match es, Term.derivesAll_iff.mpr h with
  | _, .nil => exact ⟨allOn_nil, rfl⟩
  | e :: es, .cons ht hts =>
    obtain ⟨hon, hfamily⟩ := e.elaborate_lines hes.1 ht
    obtain ⟨hon', hfamily'⟩ := Term.elaborateAll_lines es hes.2 hts
    exact ⟨by simp [Expr.postorderAll, hon, hon'], hfamily'.trans hfamily⟩

end

/-- The code of a first value or a returned value is on its lines. -/
theorem value?_lines {c c' : Context} {line : Nat} {init : Option Term} {t : Expr} (hline : P line)
    (hinit : Term.OnLines? P init) (h : c.value? line init = some (t, c')) :
    AllOn P t.postorder ∧ Literal.familyAll c'.literals = Literal.familyAll c.literals := by
  cases init with
  | none =>
    obtain ⟨rfl, rfl⟩ := Prod.mk.inj (Option.some.inj h)
    exact ⟨by simpa [Expr.postorder] using hline, rfl⟩
  | some e => exact e.elaborate_lines (hinit e rfl) h

end

/-! ## Lines of resolved statements -/

namespace Context

theorem declare?_literals {c d : Context} {x : String} (h : c.declare? x = some d) :
    d.literals = c.literals := by
  rcases declare?_spec h with ⟨-, rfl⟩ | ⟨-, rfl⟩
  · rfl
  · rfl

theorem declareFunction?_literals {c d : Context} {x : String} (h : c.declareFunction? x = some d) :
    d.literals = c.literals := by
  rcases declareFunction?_spec h with ⟨-, rfl⟩ | ⟨-, rfl⟩
  · rfl
  · rfl

theorem define?_family {c d : Context} {x : String} {v : Variable} (h : c.define? x = some (v, d)) :
    Literal.familyAll d.literals = Literal.familyAll c.literals := by
  rcases define?_spec h with ⟨-, ⟨more, hadds, -⟩, -⟩ | ⟨-, -, rfl⟩
  · exact hadds.family
  · rfl

/-- The code of all functions that are known is on lines with a property. -/
def FunctionsOn (P : Nat → Prop) (c : Context) : Prop :=
  ∀ f ∈ Literal.familyAll c.literals, AllOn P f.chunk.code.toList

variable {P : Nat → Prop} {c c' outer : Context}

/-- Without literals there is no function to look at. -/
theorem functionsOn_of_nil (h : c.literals = []) : c.FunctionsOn P := by
  rw [FunctionsOn, h]
  exact List.forall_mem_nil _

theorem FunctionsOn.congr (hc : c.FunctionsOn P)
    (h : Literal.familyAll c'.literals = Literal.familyAll c.literals) : c'.FunctionsOn P := by
  rw [FunctionsOn, h]
  exact hc

/-- A function that is closed joins the functions that are known. -/
theorem FunctionsOn.close (houter : outer.FunctionsOn P) (hinner : c.FunctionsOn P)
    {id : FunctionId} {name : Option String} {arity line index : Nat} {b : Block}
    (hb : AllOn P b.postorder) (hline : P line)
    (h : c.closeFunction? outer (.ofBody id name arity c.literals b line) = some (index, c')) :
    c'.FunctionsOn P := by
  unfold closeFunction? at h
  obtain ⟨hls, -⟩ := addLiteral?_spec h
  intro f hf
  rw [hls, Literal.familyAll_append] at hf
  rcases List.mem_append.mp hf with hf | hf
  · exact houter f hf
  · rw [Literal.familyAll, Literal.familyAll, List.append_nil, Literal.family,
      Function.family_eq] at hf
    rcases List.mem_cons.mp hf with rfl | hf
    · exact allOn_append.mpr ⟨hb, allOn_placeOn hline _⟩
    · exact hinner f hf

end Context

section

variable {P : Nat → Prop}

mutual

/-- The code of a statement is on its lines, and so is the code of the functions in it. -/
theorem Clause.elaborate_lines {c c' : Context} {t : Stmt} (s : Clause) (hs : s.OnLines P)
    (hc : c.FunctionsOn P) (h : s.elaborate c = some (t, c')) :
    AllOn P t.postorder ∧ c'.FunctionsOn P := by
  match s, Clause.derives_iff.mpr h with
  | .expr e _, .expr ht | .print e _, .print ht =>
    obtain ⟨hon, hfamily⟩ := e.elaborate_lines hs.1 ht
    exact ⟨by simp [Stmt.postorder, hon, hs.2], hc.congr hfamily⟩
  | _, .declare hd ht hv =>
    obtain ⟨hname, hinit, hline⟩ := hs
    obtain ⟨hon, hfamily⟩ := value?_lines hname hinit ht
    refine ⟨by simp [Stmt.postorder, hon, allOn_placeOn hline], hc.congr ?_⟩
    rw [define?_family hv, hfamily, declare?_literals hd]
  | .function _ _ _ body _, .function houter _ hopened hb hclose hv =>
    obtain ⟨hbody, hline⟩ := hs
    -- the body is resolved in a context of its own, with no functions yet
    obtain ⟨new, rfl, -⟩ := declareAll?_spec (by simp [openFunction, Scope.enter]) hopened
    obtain ⟨hon, hinner⟩ := Clause.elaborateAll_lines body hbody allOn_nil
      (functionsOn_of_nil rfl) hb
    have hknown := hc.congr (congrArg Literal.familyAll (declareFunction?_literals houter))
    refine ⟨by simp [Stmt.postorder, hline, allOn_placeOn hline], ?_⟩
    exact (hknown.close hinner hon hline hclose).congr (define?_family hv)
  | .ifThen cond _ body, .ifThen ht hb _ | .loop cond _ body, .loop ht hb _ =>
    obtain ⟨hcond, hline, hbody⟩ := hs
    obtain ⟨hon, hfamily⟩ := cond.elaborate_lines hcond ht
    obtain ⟨hon', hc'⟩ := body.elaborate_lines hbody (hc.congr hfamily) hb
    exact ⟨by simp [Stmt.postorder, hon, hon', hline, Clause.lastLine_of_onLines hbody], hc'⟩
  | .ifElse cond _ body other, .ifElse ht hb _ ho _ =>
    obtain ⟨hcond, hline, hbody, hother⟩ := hs
    obtain ⟨hon, hfamily⟩ := cond.elaborate_lines hcond ht
    obtain ⟨hon', hd⟩ := body.elaborate_lines hbody (hc.congr hfamily) hb
    obtain ⟨hon'', hc'⟩ := other.elaborate_lines hother hd ho
    exact ⟨by simp [Stmt.postorder, hon, hon', hon'', hline, Clause.lastLine_of_onLines hbody], hc'⟩
  | _, .ret ht =>
    obtain ⟨hon, hfamily⟩ := value?_lines hs.2 hs.1 ht
    exact ⟨by simp [Stmt.postorder, hon, hs.2], hc.congr hfamily⟩
  | _, .yield | _, .stop => exact ⟨by simpa [Stmt.postorder, Clause.OnLines] using hs, hc⟩
  | .block body _, .block hb =>
    have henter : c.enter.FunctionsOn P := hc
    obtain ⟨hon, hd⟩ := Clause.elaborateAll_lines body hs.1 allOn_nil henter hb
    exact ⟨by simp [Stmt.postorder, hon, allOn_replicate hs.2], hd⟩

/-- The code of statements and declarations is on their lines. -/
theorem Clause.elaborateAll_lines {c c' : Context} {read b : Block} (ss : List Clause)
    (hss : Clause.OnLinesAll P ss) (hread : AllOn P read.postorder) (hc : c.FunctionsOn P)
    (h : Clause.elaborateAll ss read c = some (b, c')) :
    AllOn P b.postorder ∧ c'.FunctionsOn P := by
  match ss, Clause.derivesAll_iff.mpr h with
  | _, .nil => exact ⟨hread, hc⟩
  | s :: ss, .cons ht hts =>
    obtain ⟨hon, hd⟩ := s.elaborate_lines hss.1 hc ht
    have hread' : AllOn P (read.append _).postorder := allOn_append.mpr ⟨hread, hon⟩
    exact Clause.elaborateAll_lines ss hss.2 hread' hd hts

end

end

/-! ## Lines of a source -/

/-- Tokens are on lines that are there. -/
theorem Made.lines {before text : List Char} {ts : List Token} (h : Made before text ts) :
    ∀ t ∈ ts, 1 ≤ t.line ∧ t.line ≤ 1 + (before ++ text).count '\n' := by
  induction h with
  | last =>
    intro t ht
    rw [List.mem_singleton.mp ht]
    exact ⟨Nat.le_add_right _ _, Nat.le_refl _⟩
  | @token before gap u rest kind word ts hgap hu _ ih =>
    intro t ht
    rcases List.mem_cons.mp ht with rfl | ht
    · refine ⟨Nat.le_add_right _ _, ?_⟩
      simp only [List.count_append]
      omega
    · obtain ⟨hlow, hhigh⟩ := ih t ht
      refine ⟨hlow, ?_⟩
      simpa only [List.append_assoc] using hhigh

/-- The number of lines of a source. -/
def lineCount (source : String) : Nat :=
  1 + source.toList.count '\n'

/-- The code of every function of a compiled program is on lines of its source. -/
theorem lines_of_compile {unit : Nat} {globals : List String} {source : String} {p : Program}
    (h : compile unit globals source = .ok p) :
    ∀ f ∈ p.main.family, AllOn (fun line => 1 ≤ line ∧ line ≤ lineCount source)
      f.chunk.code.toList := by
  obtain ⟨s, body, c, ⟨ts, t, htokens, -, hlast, hspells⟩, hb, rfl, -⟩ := resolved_of_compile h
  have hlines := (made_tokens source).lines
  rw [htokens] at hlines
  have hon := hspells.onLines (P := fun line => 1 ≤ line ∧ line ≤ lineCount source)
    fun u hu => hlines u (List.mem_append_left _ hu)
  obtain ⟨hbody, hc⟩ := Clause.elaborateAll_lines s.body hon allOn_nil (functionsOn_of_nil rfl) hb
  intro f hf
  rw [Function.family_eq] at hf
  rcases List.mem_cons.mp hf with rfl | hf
  · have hlastLine := hlines t (by simp)
    rw [hlast] at hlastLine
    exact allOn_append.mpr ⟨hbody, allOn_placeOn hlastLine _⟩
  · exact hc f hf

/-- The line of an instruction of a compiled function is one of the source that the function was
compiled from. -/
theorem Library.Holds.line_le {lib : Library} {f : Function} (hf : lib.Holds f) {place line : Nat}
    (h : f.chunk.line? place = some line) : 1 ≤ line ∧ line ≤ lineCount (lib f.id.unit).2 := by
  obtain ⟨p, hp, hmem⟩ := hf
  obtain ⟨q, hq, rfl⟩ := Option.map_eq_some_iff.mp h
  exact lines_of_compile hp f hmem q (Array.mem_toList_iff.mpr (Array.mem_of_getElem? hq))

end EntityScript
