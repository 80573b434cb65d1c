/-
# One move of the compiler

What the small operations on the state of the compiler do.  A state is seen in three parts: the
tokens from the current one on (`stream`), what is known about names and literals (`context`), and
the errors so far.

* Errors are never forgotten: `Keeps p q` says that a state `q` reached from `p` has an error if `p`
has one, and that panic still comes from a recorded error (`Sane`).
* Every operation that can complain does to the context what the static rules say
(`Context.addLiteral?` and so on), and complains exactly when they are broken.
* Without errors, moving on takes one token off the stream.
-/
import EntityScript.Compile.Statement
import EntityScript.Proofs.Script.Derivation
import Mathlib.Tactic.Common

namespace EntityScript

namespace ParseState

/-- The tokens from the current one on. -/
def stream (p : ParseState) : List Token :=
  p.current :: p.rest

/-- What is known about names, literals and functions. -/
def context (p : ParseState) : Context :=
  ⟨p.scope, p.literals, p.globals, p.strings, p.unit, p.serial⟩

/-- The state with another context. -/
def withContext (p : ParseState) (c : Context) : ParseState :=
  { p with
    scope := c.scope
    literals := c.literals
    globals := c.globals
    strings := c.strings
    unit := c.unit
    serial := c.serial }

@[simp] theorem context_withContext (p : ParseState) (c : Context) :
    (p.withContext c).context = c := rfl

@[simp] theorem withContext_context (p : ParseState) : p.withContext p.context = p := rfl

@[simp] theorem withContext_withContext (p : ParseState) (c d : Context) :
    (p.withContext c).withContext d = p.withContext d := rfl

@[simp] theorem stream_withContext (p : ParseState) (c : Context) :
    (p.withContext c).stream = p.stream := rfl

@[simp] theorem previous_withContext (p : ParseState) (c : Context) :
    (p.withContext c).previous = p.previous := rfl

@[simp] theorem current_withContext (p : ParseState) (c : Context) :
    (p.withContext c).current = p.current := rfl

@[simp] theorem line_withContext (p : ParseState) (c : Context) :
    (p.withContext c).line = p.line := rfl

@[simp] theorem diagnostics_withContext (p : ParseState) (c : Context) :
    (p.withContext c).diagnostics = p.diagnostics := rfl

@[simp] theorem panicking_withContext (p : ParseState) (c : Context) :
    (p.withContext c).panicking = p.panicking := rfl

/-! ## Errors are kept -/

/-- Panic comes from an error that has been recorded. -/
def Sane (p : ParseState) : Prop :=
  p.panicking = true → p.diagnostics ≠ []

/-- Going from one state to the other loses no error. -/
structure Keeps (p q : ParseState) : Prop where
  sane : p.Sane → q.Sane
  failed : p.diagnostics ≠ [] → q.diagnostics ≠ []

namespace Keeps

variable {p q r : ParseState}

theorem refl (p : ParseState) : Keeps p p := ⟨id, id⟩

theorem trans (h : Keeps p q) (k : Keeps q r) : Keeps p r :=
  ⟨fun hp => k.sane (h.sane hp), fun hp => k.failed (h.failed hp)⟩

/-- A state that ends up without errors had none before. -/
theorem clean (h : Keeps p q) (hq : q.diagnostics = []) : p.diagnostics = [] := by
  by_contra hp
  exact h.failed hp hq

/-- The state that a reader gives with its result. -/
theorem result {α : Type} {a : α} {x : α × ParseState} (h : Keeps p x.2) (hx : x = (a, q)) :
    Keeps p q := by
  rwa [hx] at h

/-- Changing neither the errors nor the panic loses no error. -/
theorem of_eq (hd : q.diagnostics = p.diagnostics) (hp : q.panicking = p.panicking) : Keeps p q :=
  ⟨fun hs h => by rw [hd]; exact hs (hp ▸ h), fun h => by rw [hd]; exact h⟩

end Keeps

/-- A complaint is recorded, unless an error has been recorded before. -/
theorem complainAt_failed {p : ParseState} (hs : p.Sane) (t : Token) (c : Complaint) :
    (p.complainAt t c).diagnostics ≠ [] := by
  unfold complainAt
  by_cases h : p.panicking = true
  · rw [if_pos h]
    exact hs h
  · rw [if_neg h]
    simp

theorem complain_failed {p : ParseState} (hs : p.Sane) (c : Complaint) :
    (p.complain c).diagnostics ≠ [] :=
  complainAt_failed hs _ c

/-- A complaint adds an error, or adds nothing where there is panic. -/
theorem keeps_complainAt (p : ParseState) (t : Token) (c : Complaint) :
    Keeps p (p.complainAt t c) := by
  unfold complainAt
  by_cases h : p.panicking = true
  · rw [if_pos h]
    exact .refl p
  · rw [if_neg h]
    exact ⟨fun _ _ => by simp, fun _ => by simp⟩

theorem keeps_complain (p : ParseState) (c : Complaint) : Keeps p (p.complain c) :=
  keeps_complainAt p _ c

theorem keeps_exhaust (p : ParseState) : Keeps p p.exhaust := .of_eq rfl rfl

theorem keeps_withContext (p : ParseState) (c : Context) : Keeps p (p.withContext c) :=
  .of_eq rfl rfl

/-- Bad texts that are passed over add errors. -/
theorem keeps_shift (ts : List Token) (p : ParseState) : Keeps p (shift ts p) := by
  induction ts generalizing p with
  | nil => exact .of_eq rfl rfl
  | cons t rest ih =>
    rw [shift]
    by_cases h : t.kind = .error
    · rw [if_pos h]
      exact (keeps_complainAt p t _).trans (ih _)
    · rw [if_neg h]
      exact .of_eq rfl rfl

theorem keeps_advance (p : ParseState) : Keeps p p.advance := keeps_shift p.rest p

/-- A token that is missing adds an error. -/
theorem keeps_expect (p : ParseState) (kind : TokenKind) (what : String) :
    Keeps p (p.expect kind what) := by
  unfold expect
  by_cases h : p.at? kind = true
  · rw [if_pos h]
    exact keeps_advance p
  · rw [if_neg h]
    exact keeps_complainAt p _ _

/-- Recovery drops the panic, but no error. -/
theorem keeps_skip (ts : List Token) (p : ParseState) : Keeps p (skip ts p) := by
  induction ts generalizing p with
  | nil =>
    rw [skip]
    by_cases h : p.atBoundary = true
    · rw [if_pos h]
      exact .refl p
    · rw [if_neg h]
      exact keeps_shift [] p
  | cons t rest ih =>
    rw [skip]
    by_cases h : p.atBoundary = true
    · rw [if_pos h]
      exact .refl p
    · rw [if_neg h]
      by_cases hk : t.kind = .error
      · rw [if_pos hk]
        have hc : Keeps p { p.complainAt t (.lexical t.text) with rest := rest } :=
          (keeps_complainAt p t _).trans (.of_eq rfl rfl)
        exact hc.trans (ih _)
      · rw [if_neg hk]
        have hn : Keeps p { p with rest := rest, previous := p.current, current := t } :=
          .of_eq rfl rfl
        exact hn.trans (ih _)

/-- Recovery ends the panic and keeps the errors. -/
theorem keeps_synchronize (p : ParseState) : Keeps p p.synchronize := by
  have h : Keeps p { p with panicking := false } :=
    ⟨fun _ hp => by simp at hp, fun hd => hd⟩
  exact h.trans (keeps_skip p.rest _)

/-! ## The static rules -/

/-- Adding a literal notes its text, and then finds room for it or not. -/
theorem addLiteral_def (p : ParseState) (l : Literal) :
    p.addLiteral l =
      if p.context.literals.length < maxLiterals then
        (p.context.literals.length,
          p.withContext { p.context.noteString l with literals := p.context.literals ++ [l] })
      else (0, (p.withContext (p.context.noteString l)).complain .tooManyLiterals) := by
  unfold addLiteral
  cases l with
  | string s =>
    by_cases hs : s ∈ p.strings <;> by_cases hl : p.literals.length < maxLiterals <;>
      simp [Literal.push, Context.noteString, context, withContext, hs, hl]
  | int n | float x | function f =>
    by_cases hl : p.literals.length < maxLiterals <;>
      simp [Literal.push, Context.noteString, context, withContext, hl]

/-- Adding a literal adds it to the context. -/
theorem addLiteral_eq {p : ParseState} {l : Literal} {i : Nat} {c : Context}
    (h : p.context.addLiteral? l = some (i, c)) : p.addLiteral l = (i, p.withContext c) := by
  unfold Context.addLiteral? at h
  split at h
  · next hl =>
    obtain ⟨rfl, rfl⟩ := Prod.mk.inj (Option.some.inj h)
    rw [addLiteral_def, if_pos hl]
  · simp at h

/-- A literal for which there is no room is an error. -/
theorem addLiteral_failed {p : ParseState} {l : Literal} (hs : p.Sane)
    (h : p.context.addLiteral? l = none) : (p.addLiteral l).2.diagnostics ≠ [] := by
  unfold Context.addLiteral? at h
  split at h
  · simp at h
  · next hl =>
    rw [addLiteral_def, if_neg hl]
    exact complain_failed ((keeps_withContext p _).sane hs) _

/-- A literal too many adds an error. -/
theorem keeps_addLiteral (p : ParseState) (l : Literal) : Keeps p (p.addLiteral l).2 := by
  rw [addLiteral_def]
  split
  · exact keeps_withContext p _
  · exact (keeps_withContext p _).trans (keeps_complain _ _)

/-- If a name has or gets a literal, this is its index, and nothing is recorded. -/
theorem nameLiteral_eq {p : ParseState} {x : String} {i : Nat} {c : Context}
    (h : p.context.nameLiteral? x = some (i, c)) : p.nameLiteral x = (i, p.withContext c) := by
  unfold Context.nameLiteral? at h
  unfold nameLiteral
  split at h
  · next j hx =>
    have hx' : Literal.indexOfString? p.literals x = some j := hx
    obtain ⟨rfl, rfl⟩ := Prod.mk.inj (Option.some.inj h)
    rw [hx']
    rfl
  · next hx =>
    have hx' : Literal.indexOfString? p.literals x = none := hx
    rw [hx']
    exact addLiteral_eq h

/-- If there is no room for the literal of a name, an error is recorded. -/
theorem nameLiteral_failed {p : ParseState} {x : String} (hs : p.Sane)
    (h : p.context.nameLiteral? x = none) : (p.nameLiteral x).2.diagnostics ≠ [] := by
  unfold Context.nameLiteral? at h
  split at h
  · simp at h
  · next hx =>
    have hx' : Literal.indexOfString? p.literals x = none := hx
    unfold nameLiteral
    rw [hx']
    exact addLiteral_failed hs h

theorem keeps_nameLiteral (p : ParseState) (x : String) : Keeps p (p.nameLiteral x).2 := by
  unfold nameLiteral
  split
  · exact .refl p
  · exact keeps_addLiteral p _

/-- A declaration makes room for a local as the rules say. -/
theorem declare_eq {p : ParseState} {x : String} {c : Context}
    (h : p.context.declare? x = some c) : p.declare x = p.withContext c := by
  unfold Context.declare? at h
  unfold declare
  by_cases hd : p.scope.depth = 0
  · have hd' : p.context.scope.depth = 0 := hd
    rw [if_pos hd'] at h
    rw [if_pos hd, ← Option.some.inj h]
    rfl
  · have hd' : ¬ p.context.scope.depth = 0 := hd
    rw [if_neg hd'] at h
    rw [if_neg hd]
    split at h
    · simp at h
    · next hx =>
      have hx' : ¬ p.scope.declares x = true := hx
      obtain ⟨s, hadd, rfl⟩ := Option.map_eq_some_iff.mp h
      have hadd' : p.scope.add? x = some s := hadd
      simp only [if_neg hx', hadd']
      rfl

theorem keeps_declare (p : ParseState) (x : String) : Keeps p (p.declare x) := by
  unfold declare
  split
  · exact .refl p
  · have hc : Keeps p (if p.scope.declares x then p.complain .duplicateLocal else p) := by
      split
      · exact keeps_complain p _
      · exact .refl p
    simp only
    split
    · exact hc.trans (.of_eq rfl rfl)
    · exact hc.trans (keeps_complain _ _)

/-- A local that the block has already, or for which there is no room, is an error. -/
theorem declare_failed {p : ParseState} {x : String} (hs : p.Sane)
    (h : p.context.declare? x = none) : (p.declare x).diagnostics ≠ [] := by
  unfold Context.declare? at h
  split at h
  · simp at h
  · next hd =>
    have hd' : ¬ p.scope.depth = 0 := hd
    unfold declare
    rw [if_neg hd']
    split at h
    · next hx =>
      have hx' : p.scope.declares x = true := hx
      simp only [if_pos hx']
      split
      · exact complain_failed hs _
      · exact (keeps_complain _ _).failed (complain_failed hs _)
    · next hx =>
      have hx' : ¬ p.scope.declares x = true := hx
      have hadd : p.scope.add? x = none := Option.map_eq_none_iff.mp h
      simp only [if_neg hx', hadd]
      exact complain_failed hs _

/-- Settling a declaration changes nothing but what is known. -/
theorem settle_eq (p : ParseState) : p.settle = p.withContext p.context.settle := by
  unfold settle Context.settle
  change (if p.context.scope.depth = 0 then p else _) = _
  split <;> rfl

theorem keeps_settle (p : ParseState) : Keeps p p.settle := by
  rw [settle_eq]
  exact keeps_withContext p _

/-- If a name can be declared it is, without an error. -/
theorem declareSettled_eq {p : ParseState} {x : String} {c : Context}
    (h : p.context.declareSettled? x = some c) : (p.declare x).settle = p.withContext c := by
  obtain ⟨d, hd, rfl⟩ := Option.map_eq_some_iff.mp h
  rw [declare_eq hd, settle_eq]
  rfl

/-- If a name cannot be declared, an error is recorded. -/
theorem declareSettled_failed {p : ParseState} {x : String} (hs : p.Sane)
    (h : p.context.declareSettled? x = none) : (p.declare x).settle.diagnostics ≠ [] :=
  (keeps_settle _).failed (declare_failed hs (Option.map_eq_none_iff.mp h))

/-- If a name can be defined it is, without an error. -/
theorem define_eq {p : ParseState} {x : String} {v : Variable} {c : Context}
    (h : p.context.define? x = some (v, c)) : p.define x = (v, p.withContext c) := by
  unfold Context.define? at h
  unfold define
  split at h
  · next hd =>
    have hd' : p.scope.depth = 0 := hd
    obtain ⟨⟨i, d⟩, hn, he⟩ := Option.map_eq_some_iff.mp h
    obtain ⟨rfl, rfl⟩ := Prod.mk.inj he
    rw [if_pos hd', nameLiteral_eq hn]
    rfl
  · next hd =>
    have hd' : ¬ p.scope.depth = 0 := hd
    obtain ⟨rfl, rfl⟩ := Prod.mk.inj (Option.some.inj h)
    rw [if_neg hd', settle_eq]
    rfl

/-- If a name cannot be defined, an error is recorded. -/
theorem define_failed {p : ParseState} {x : String} (hs : p.Sane)
    (h : p.context.define? x = none) : (p.define x).2.diagnostics ≠ [] := by
  unfold Context.define? at h
  split at h
  · next hd =>
    have hd' : p.scope.depth = 0 := hd
    unfold define
    rw [if_pos hd']
    exact nameLiteral_failed hs (Option.map_eq_none_iff.mp h)
  · simp at h

/-- A definition keeps errors. -/
theorem keeps_define (p : ParseState) (x : String) : Keeps p (p.define x).2 := by
  unfold define
  split
  · exact (keeps_nameLiteral p x).trans (.of_eq rfl rfl)
  · exact keeps_settle p

/-- A name stands for what the rules say. -/
theorem resolve_eq {p : ParseState} {x : String} {v : Variable} {c : Context}
    (h : p.context.resolve? x = some (v, c)) : p.resolve x = (some v, p.withContext c) := by
  cases Variable.derives_iff.mpr h with
  | slot hx hfind =>
    have hfind' : p.scope.find? x = _ := hfind
    rw [resolve, hfind']
    rfl
  | global hx hfind hknown hl =>
    have hfind' : p.scope.find? x = none := hfind
    have hknown' : p.globals.contains x = true := List.contains_iff_mem.mpr hknown
    rw [resolve, hfind']
    simp only [if_pos hknown', nameLiteral_eq hl]

/-- A name that stands for nothing is an error, and so is a local in its own first value. -/
theorem resolve_failed {p : ParseState} {x : String} (hs : p.Sane) (hx : x ≠ "")
    (h : p.context.resolve? x = none) : (p.resolve x).2.diagnostics ≠ [] := by
  unfold Context.resolve? at h
  rw [if_neg hx] at h
  unfold resolve
  split at h
  · simp at h
  · next slot hf =>
    have hf' : p.scope.find? x = some (slot, false) := hf
    rw [hf']
    exact complain_failed hs _
  · next hf =>
    have hf' : p.scope.find? x = none := hf
    rw [hf']
    split at h
    · next hg =>
      have hg' : p.globals.contains x = true := hg
      simp only [if_pos hg']
      exact nameLiteral_failed hs (Option.map_eq_none_iff.mp h)
    · next hg =>
      have hg' : ¬ p.globals.contains x = true := hg
      simp only [if_neg hg']
      exact complain_failed hs _

/-- A name that is unknown adds an error. -/
theorem keeps_resolve (p : ParseState) (x : String) : Keeps p (p.resolve x).2 := by
  unfold resolve
  split
  · next slot settled hf =>
    cases settled
    · exact keeps_complain p _
    · exact .refl p
  · split
    · exact keeps_nameLiteral p x
    · exact keeps_complain p _

/-- A number becomes a literal as the rules say. -/
theorem readNumber_eq {p : ParseState} {t : Expr} {c : Context}
    (h : p.context.number? p.previous.text p.line = some (t, c)) :
    p.readNumber = (t, p.withContext c) := by
  have hderives : Term.Derives p.context true (.number p.previous.text p.line) (t, c) :=
    Term.derives_number h
  cases hderives with
  | int hn hl | float hn hl => simp only [readNumber, hn, addLiteral_eq hl, line_withContext]

/-- A number that is out of range, or for which there is no room, is an error. -/
theorem readNumber_failed {p : ParseState} (hs : p.Sane)
    (h : p.context.number? p.previous.text p.line = none) : p.readNumber.2.diagnostics ≠ [] := by
  unfold Context.number? at h
  unfold readNumber
  cases hl : numberLiteral? p.previous.text with
  | none => exact complain_failed hs _
  | some l =>
    cases l with
    | int n =>
      rw [hl] at h
      exact addLiteral_failed hs (Option.map_eq_none_iff.mp h)
    | float x =>
      rw [hl] at h
      exact addLiteral_failed hs (Option.map_eq_none_iff.mp h)
    | string s | function f => exact complain_failed hs _

/-! ## Tokens -/

/-- The tokens of a source from some place on: one end token, which is the last, and no name without
characters. -/
structure Orderly (ts : List Token) : Prop where
  ends : ∃ us t, ts = us ++ [t] ∧ t.kind = .eof ∧ ∀ u ∈ us, u.kind ≠ .eof
  named : ∀ u ∈ ts, u.kind = .identifier → u.text ≠ ""

/-- What comes after some of the tokens is orderly, too. -/
theorem Orderly.of_append {ts us : List Token} (h : Orderly (ts ++ us)) (hu : us ≠ []) :
    Orderly us := by
  obtain ⟨⟨vs, t, he, ht, hv⟩, hn⟩ := h
  refine ⟨?_, fun u hm => hn u (List.mem_append_right ts hm)⟩
  obtain ⟨ws, w, rfl⟩ := List.eq_nil_or_concat us |>.resolve_left hu
  rw [List.concat_eq_append, ← List.append_assoc] at he
  obtain ⟨rfl, hw⟩ := List.append_inj' he rfl
  obtain rfl : w = t := by simpa using hw
  exact ⟨ws, w, by simp, ht, fun u hm => hv u (List.mem_append_right ts hm)⟩

/-- After a token that is not the end token come others. -/
theorem Orderly.tail_ne_nil {t : Token} {ts : List Token} (h : Orderly (t :: ts))
    (ht : t.kind ≠ .eof) : ts ≠ [] := by
  rintro rfl
  obtain ⟨us, u, he, hu, -⟩ := h.ends
  cases us with
  | nil =>
    obtain rfl : t = u := by simpa using he
    exact ht hu
  | cons v vs => simp at he

theorem Orderly.tail {t : Token} {ts : List Token} (h : Orderly (t :: ts)) (ht : t.kind ≠ .eof) :
    Orderly ts :=
  (show Orderly ([t] ++ ts) from h).of_append (h.tail_ne_nil ht)

/-- The second state comes from the first by taking its current token. -/
structure Takes (p q : ParseState) : Prop where
  stream : p.stream = p.current :: q.stream
  previous : q.previous = p.current
  context : q.context = p.context

/-- The line of the state is that of the token that was taken last. -/
theorem Takes.line {p q : ParseState} (h : Takes p q) : q.line = p.current.line := by
  unfold ParseState.line
  rw [h.previous]

/-- Tokens stay orderly when one of them is taken. -/
theorem Takes.orderly {p q : ParseState} (h : Takes p q) (ho : Orderly p.stream)
    (hk : p.current.kind ≠ .eof) : Orderly q.stream := by
  rw [h.stream] at ho
  exact ho.tail hk

/-- Moving on over a good token. -/
theorem advance_eq {p : ParseState} {t : Token} {ts : List Token} (h : p.rest = t :: ts)
    (ht : t.kind ≠ .error) :
    p.advance = { p with rest := ts, previous := p.current, current := t } := by
  unfold advance
  rw [h, shift, if_neg ht]

/-- Moving on without an error takes the current token. -/
theorem takes_advance {p : ParseState} (hs : p.Sane) (ho : Orderly p.stream)
    (hk : p.current.kind ≠ .eof) (hc : p.advance.diagnostics = []) : Takes p p.advance := by
  cases hr : p.rest with
  | nil =>
    have hne : p.rest ≠ [] := Orderly.tail_ne_nil ho hk
    exact absurd hr hne
  | cons t ts =>
    by_cases ht : t.kind = .error
    · have hf : p.advance.diagnostics ≠ [] := by
        unfold advance
        rw [hr, shift, if_pos ht]
        exact (keeps_shift ts _).failed (complainAt_failed hs t _)
      exact absurd hc hf
    · rw [advance_eq hr ht]
      exact ⟨by simp [stream, hr], rfl, rfl⟩

/-- What was expected is there, if there is no error. -/
theorem expect_eq {p : ParseState} {kind : TokenKind} {what : String} (hs : p.Sane)
    (hc : (p.expect kind what).diagnostics = []) :
    p.current.kind = kind ∧ p.expect kind what = p.advance := by
  unfold expect at hc ⊢
  by_cases h : p.at? kind = true
  · rw [if_pos h]
    exact ⟨by simpa [at?] using h, rfl⟩
  · rw [if_neg h] at hc
    exact absurd hc (complainAt_failed hs _ _)

/-- If an expected token leaves no error it was there, and has been taken. -/
theorem takes_expect {p : ParseState} {kind : TokenKind} {what : String} (hs : p.Sane)
    (ho : Orderly p.stream) (hk : kind ≠ .eof) (hc : (p.expect kind what).diagnostics = []) :
    p.current.kind = kind ∧ Takes p (p.expect kind what) := by
  obtain ⟨hcur, he⟩ := expect_eq hs hc
  refine ⟨hcur, ?_⟩
  rw [he] at hc ⊢
  exact takes_advance hs ho (hcur ▸ hk) hc

/-- A name that is no member adds an error. -/
theorem keeps_readMember (p : ParseState) : Keeps p p.readMember.2 := by
  have he := keeps_expect p .identifier "member name after '.'"
  unfold readMember
  simp only
  split
  · split
    · exact he
    · exact he.trans (keeps_complain _ _)
  · exact he

/-- A member that is read without an error is one of the four. -/
theorem readMember_clean {p : ParseState} (hs : p.Sane) (ho : Orderly p.stream)
    (hc : p.readMember.2.diagnostics = []) :
    ∃ m, p.readMember.1 = some m ∧ Member.ofName? p.current.text = some m ∧
      p.current.kind = .identifier ∧ Takes p p.readMember.2 := by
  have he : (p.expect .identifier "member name after '.'").diagnostics = [] := by
    have hk : Keeps (p.expect .identifier "member name after '.'") p.readMember.2 := by
      unfold readMember
      simp only
      split
      · split
        · exact .refl _
        · exact keeps_complain _ _
      · exact .refl _
    exact hk.clean hc
  obtain ⟨hcur, ht⟩ := takes_expect hs ho (by simp) he
  have hs' := (keeps_expect p .identifier "member name after '.'").sane hs
  have hprev : (p.expect .identifier "member name after '.'").previous = p.current := ht.previous
  unfold readMember at hc ⊢
  simp only [hprev, hcur] at hc ⊢
  cases hm : Member.ofName? p.current.text with
  | none =>
    simp only [hm] at hc
    exact absurd hc (complain_failed hs' _)
  | some m => exact ⟨m, rfl, rfl, trivial, ht⟩

end ParseState

end EntityScript
