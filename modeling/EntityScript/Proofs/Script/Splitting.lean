/-
# Scripts in two parts

A function ends with the brace that closes its body, so some tokens that begin with a function do so
in one way only (`Spells.beyondBlock_function`).  If a script begins with the tokens of some
functions, functions with these tokens are its first declarations, and what comes after them is a
script of its own (`Spells.split`).
-/
import EntityScript.Proofs.Script.Declaring

namespace EntityScript

/-- What is left of some tokens behind the first outermost block that is closed; `n` blocks are open
already. -/
def beyondBlock : (n : Nat) → List Token → List Token
  | _, [] => []
  | n, t :: ts =>
    if t.kind = .leftBrace then beyondBlock (n + 1) ts
    else if t.kind = .rightBrace then if n ≤ 1 then ts else beyondBlock (n - 1) ts
    else beyondBlock n ts

section

variable {t : Token} {ts us rest : List Token} {s : Clause}

theorem beyondBlock_open (h : t.kind = .leftBrace) (n : Nat) (ts : List Token) :
    beyondBlock n (t :: ts) = beyondBlock (n + 1) ts := by
  rw [beyondBlock, if_pos h]

theorem beyondBlock_close (h : t.kind = .rightBrace) (n : Nat) (ts : List Token) :
    beyondBlock (n + 2) (t :: ts) = beyondBlock (n + 1) ts := by
  rw [beyondBlock, if_neg (by rw [h]; decide), if_pos h, if_neg (by omega)]
  rfl

/-- Behind the brace that closes the outermost block is what is left. -/
theorem beyondBlock_last (h : t.kind = .rightBrace) (ts : List Token) :
    beyondBlock 1 (t :: ts) = ts := by
  rw [beyondBlock, if_neg (by rw [h]; decide), if_pos h, if_pos (Nat.le_refl 1)]

theorem beyondBlock_cons (h : t.kind ≠ .leftBrace ∧ t.kind ≠ .rightBrace) (n : Nat)
    (ts : List Token) :
    beyondBlock n (t :: ts) = beyondBlock n ts := by
  rw [beyondBlock, if_neg h.1, if_neg h.2]

/-- There are no braces in an expression. -/
theorem beyondBlock_inTerm (h : ∀ t ∈ ts, t.kind.inTerm = true) (n : Nat) (rest : List Token) :
    beyondBlock n (ts ++ rest) = beyondBlock n rest := by
  induction ts with
  | nil => rfl
  | cons t ts ih =>
    have ht := h t List.mem_cons_self
    have hnone : t.kind ≠ .leftBrace ∧ t.kind ≠ .rightBrace := by
      constructor <;> (intro hk; rw [hk] at ht; cases ht)
    rw [List.cons_append, beyondBlock_cons hnone]
    exact ih fun u hu => h u (List.mem_cons_of_mem _ hu)

/-- Statements and declarations close the blocks that they open. -/
theorem Spells.beyondBlock_append {σ : Sentence} (h : Spells ts σ) (n : Nat) (rest : List Token) :
    beyondBlock (n + 1) (ts ++ rest) = beyondBlock (n + 1) rest := by
  induction h generalizing n rest with
  | expr he hsemi =>
    simp [beyondBlock_inTerm he.inTerm, beyondBlock_cons, hsemi]
  | print hkw he hsemi =>
    simp [beyondBlock_inTerm he.inTerm, beyondBlock_cons, hkw, hsemi]
  | ifThen hkw hlp he hrp _ ih =>
    simp [beyondBlock_inTerm he.inTerm, beyondBlock_cons, hkw, hlp, hrp, ih]
  | ifElse hkw hlp he hrp _ _ hel _ ih ih' =>
    simp [beyondBlock_inTerm he.inTerm, beyondBlock_cons, hkw, hlp, hrp, hel, ih, ih']
  | loop hkw hlp he hrp _ ih =>
    simp [beyondBlock_inTerm he.inTerm, beyondBlock_cons, hkw, hlp, hrp, ih]
  | ret hkw hsemi | yield hkw hsemi | stop hkw hsemi =>
    simp [beyondBlock_cons, hkw, hsemi]
  | retWith hkw he hsemi =>
    simp [beyondBlock_inTerm he.inTerm, beyondBlock_cons, hkw, hsemi]
  | block hlb _ hrb ih =>
    simp [beyondBlock_open, beyondBlock_close, hlb, hrb, ih]
  | ofStatement _ ih => exact ih n rest
  | declare hkw hx hsemi =>
    simp [beyondBlock_cons, hkw, hx, hsemi]
  | declareWith hkw hx heq he hsemi =>
    simp [beyondBlock_inTerm he.inTerm, beyondBlock_cons, hkw, hx, heq, hsemi]
  | function _ hkw hx hlp hrp hlb _ hrb ih =>
    simp [beyondBlock_open, beyondBlock_close, beyondBlock_cons, hkw, hx, hlp, hrp, hlb, hrb, ih]
  | functionWith _ hkw hx hlp hps hrp hlb _ hrb ih =>
    simp [beyondBlock_inTerm hps.inTerm, beyondBlock_open, beyondBlock_close, beyondBlock_cons, hkw,
      hx, hlp, hrp, hlb, hrb, ih]
  | none => rfl
  | more _ _ ih ih' => rw [List.append_assoc, ih, ih']

/-- A function ends with its body. -/
theorem Spells.beyondBlock_function (h : Spells ts (.declaration s)) (hs : s.isFunction = true)
    (rest : List Token) :
    beyondBlock 0 (ts ++ rest) = rest := by
  cases h with
  | function _ hkw hx hlp hrp hlb hbody hrb =>
    simp [beyondBlock_open, beyondBlock_last, beyondBlock_cons, hkw, hx, hlp, hrp, hlb, hrb,
      hbody.beyondBlock_append]
  | functionWith _ hkw hx hlp hps hrp hlb hbody hrb =>
    simp [beyondBlock_inTerm hps.inTerm, beyondBlock_open, beyondBlock_last, beyondBlock_cons, hkw,
      hx, hlp, hrp, hlb, hrb, hbody.beyondBlock_append]
  | declare | declareWith => cases hs
  | ofStatement h => cases h <;> cases hs

/-- The functions are the declarations that begin with `fun`. -/
theorem Spells.isFunction_iff (h : Spells (t :: ts) (.declaration s)) :
    s.isFunction = true ↔ t.kind = .kwFun := by
  generalize hus : t :: ts = us at h
  cases h with
  | function _ hkw | functionWith _ hkw =>
    obtain rfl := (List.cons.inj hus).1
    exact iff_of_true rfl hkw
  | declare hkw | declareWith hkw =>
    obtain rfl := (List.cons.inj hus).1
    exact iff_of_false nofun (by rw [hkw]; decide)
  | ofStatement hs =>
    have hnone : s.isFunction ≠ true := by cases hs <;> exact Bool.false_ne_true
    obtain ⟨u, vs, rfl, hu⟩ := hs.head_statement
    obtain rfl := (List.cons.inj hus).1
    refine iff_of_false hnone fun hkw => ?_
    rw [hkw] at hu
    cases hu

/-- A script that begins with the tokens of some functions has two parts: functions with these
tokens, and the rest. -/
theorem Spells.split {fs cs : List Clause} (hfs : ∀ f ∈ fs, f.isFunction = true)
    (hus : Spells us (.sequence fs)) (h : Spells (us ++ rest) (.sequence cs)) :
    ∃ ds ss, cs = ds ++ ss ∧ (∀ d ∈ ds, d.isFunction = true) ∧ Spells us (.sequence ds) ∧
      Spells rest (.sequence ss) := by
  induction fs generalizing us cs with
  | nil =>
    cases hus
    exact ⟨[], cs, rfl, List.forall_mem_nil _, .none, h⟩
  | cons f fs ih =>
    cases hus with
    | @more ts us _ _ hf hus =>
      have hfun := hfs f List.mem_cons_self
      obtain ⟨t, ts', rfl, -⟩ := hf.head_declaration
      have ht := hf.isFunction_iff.mp hfun
      generalize hws : t :: ts' ++ us ++ rest = ws at h
      cases h with
      | none => cases hws
      | @more vs ws s ss hs hss =>
        obtain ⟨v, vs', rfl, -⟩ := hs.head_declaration
        -- the first declaration is a function, too, and ends at the same place
        obtain rfl : t = v := (List.cons.inj hws).1
        have hsfun := hs.isFunction_iff.mpr ht
        have hbehind := hf.beyondBlock_function hfun (us ++ rest)
        rw [← List.append_assoc, hws, hs.beyondBlock_function hsfun] at hbehind
        subst hbehind
        rw [List.append_assoc] at hws
        have hsame := List.append_cancel_right hws
        obtain ⟨ds, rs, rfl, hds, hus', hrs⟩ :=
          ih (fun g hg => hfs g (List.mem_cons_of_mem _ hg)) hus hss
        refine ⟨s :: ds, rs, rfl, ?_, ?_, hrs⟩
        · exact List.forall_mem_cons.mpr ⟨hsfun, hds⟩
        · rw [hsame]
          exact .more hs hus'

end

end EntityScript
