/-
# Sources without yields

Every `yield` statement of a script can give way to an empty block on the same lines
(`Token.withoutYields`).  In the tokens of a script, where a semicolon follows every `yield`, this
can be done piece by piece (`Token.Cleared`).
-/
import EntityScript.Token.Scanner
import Mathlib.Tactic.Common

namespace EntityScript

namespace Token

/-- Tokens in which each `yield` and the semicolon after it have given way to two braces on the same
lines. -/
def withoutYields : List Token → List Token
  | kw :: semi :: rest =>
    if kw.kind = .kwYield ∧ semi.kind = .semicolon then
      ⟨.leftBrace, "\x7b", kw.line⟩ :: ⟨.rightBrace, "\x7d", semi.line⟩ :: withoutYields rest
    else kw :: withoutYields (semi :: rest)
  | ts => ts

/-- The second tokens are the first ones without yields, each of which is followed by its
semicolon. -/
inductive Cleared : List Token → List Token → Prop where
  | nil : Cleared [] []
  | keep {t : Token} {ts ts' : List Token} : t.kind ≠ .kwYield → Cleared ts ts' →
    Cleared (t :: ts) (t :: ts')
  | clear {kw semi : Token} {ts ts' : List Token} : kw.kind = .kwYield → semi.kind = .semicolon →
    Cleared ts ts' →
    Cleared (kw :: semi :: ts) (⟨.leftBrace, "\x7b", kw.line⟩ ::
      ⟨.rightBrace, "\x7d", semi.line⟩ :: ts')

namespace Cleared

variable {ts ts' us us' : List Token}

/-- Tokens in two parts, each without its pauses. -/
theorem append (h : Cleared ts ts') (k : Cleared us us') : Cleared (ts ++ us) (ts' ++ us') := by
  induction h with
  | nil => exact k
  | keep ht _ ih => exact .keep ht ih
  | clear hkw hsemi _ ih => exact .clear hkw hsemi ih

/-- Tokens among which there is no `yield` stay as they are. -/
theorem refl (h : ∀ t ∈ ts, t.kind ≠ .kwYield) : Cleared ts ts := by
  induction ts with
  | nil => exact .nil
  | cons t ts ih =>
    exact .keep (h t List.mem_cons_self) (ih fun u hu => h u (List.mem_cons_of_mem t hu))

/-- Tokens without pauses are those that are left when they are taken out. -/
theorem withoutYields_eq (h : Cleared ts ts') : withoutYields ts = ts' := by
  induction h with
  | nil => rfl
  | keep ht hrest ih =>
    cases hrest with
    | nil => rfl
    | keep | clear => rw [withoutYields, if_neg fun hkw => ht hkw.1, ih]
  | clear hkw hsemi _ ih => rw [withoutYields, if_pos ⟨hkw, hsemi⟩, ih]

end Cleared

end Token

end EntityScript
