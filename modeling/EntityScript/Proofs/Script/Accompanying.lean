/-
# Computations side by side

Two computations that may give nothing go on side by side if the second gives something whenever the
first does, and what they give is related (`Accompanies`).  Where a computation carries a state
along, the two often give the same result in states that are related (`Agree`).
-/
import Mathlib.Data.Option.Basic
import Mathlib.Tactic.Common

namespace EntityScript

/-- Whatever the first computation gives, the second one gives something related to it. -/
def Accompanies {α β : Type} (R : α → β → Prop) (x : Option α) (y : Option β) : Prop :=
  ∀ a, x = some a → ∃ b, y = some b ∧ R a b

namespace Accompanies

variable {α β γ δ : Type} {R : α → β → Prop} {S : γ → δ → Prop}

/-- A result goes with one that is related to it. -/
theorem some {a : α} {b : β} (h : R a b) : Accompanies R (some a) (some b) := by
  rintro _ ⟨⟩
  exact ⟨b, rfl, h⟩

theorem none (y : Option β) : Accompanies R none y := by
  rintro _ ⟨⟩

/-- Two computations go together with two others if each goes with its own. -/
theorem bind {x : Option α} {y : Option β} {f : α → Option γ} {g : β → Option δ}
    (h : Accompanies R x y) (hf : ∀ a b, x = Option.some a → R a b → Accompanies S (f a) (g b)) :
    Accompanies S (x >>= f) (y >>= g) := by
  intro c hc
  obtain ⟨a, ha, hfa⟩ := Option.bind_eq_some_iff.mp hc
  obtain ⟨b, hb, hab⟩ := h a ha
  obtain ⟨d, hd, hcd⟩ := hf a b ha hab c hfa
  exact ⟨d, Option.bind_eq_some_iff.mpr ⟨b, hb, hd⟩, hcd⟩

/-- A computation that does not look at what the two differ in. -/
theorem same (x : Option α) {f : α → Option γ} {g : α → Option δ}
    (hf : ∀ a, Accompanies S (f a) (g a)) :
    Accompanies S (x >>= f) (x >>= g) := by
  intro c hc
  obtain ⟨a, ha, hfa⟩ := Option.bind_eq_some_iff.mp hc
  obtain ⟨d, hd, hcd⟩ := hf a c hfa
  exact ⟨d, Option.bind_eq_some_iff.mpr ⟨a, ha, hd⟩, hcd⟩

/-- Results that are related may be taken further on both sides. -/
theorem map {x : Option α} {y : Option β} {f : α → γ} {g : β → δ} (h : Accompanies R x y)
    (hf : ∀ a b, R a b → S (f a) (g b)) : Accompanies S (x.map f) (y.map g) := by
  intro c hc
  obtain ⟨a, ha, rfl⟩ := Option.map_eq_some_iff.mp hc
  obtain ⟨b, hb, hab⟩ := h a ha
  exact ⟨g b, Option.map_eq_some_iff.mpr ⟨b, hb, rfl⟩, hf a b hab⟩

/-- A rule that the first keeps and the second with it. -/
theorem guard {p q : Prop} [Decidable p] [Decidable q] (h : p → q) :
    Accompanies (fun _ _ => True) (guard p : Option Unit) (guard q) := by
  intro u hp
  exact ⟨u, (Option.guard_eq_some' u).mpr (h ((Option.guard_eq_some' u).mp hp)), trivial⟩

end Accompanies

/-- The same result, in states that are related. -/
inductive Agree {α σ : Type} (R : σ → σ → Prop) : α × σ → α × σ → Prop where
  | mk {a : α} {d d' : σ} : R d d' → Agree R (a, d) (a, d')

namespace Agree

variable {α β γ σ : Type} {R : σ → σ → Prop} {x y : Option (α × σ)}

theorem map {f g : α × σ → β} {S : β → β → Prop} (h : Accompanies (Agree R) x y)
    (hf : ∀ a d d', R d d' → S (f (a, d)) (g (a, d'))) : Accompanies S (x.map f) (y.map g) := by
  refine h.map fun p q hpq => ?_
  cases hpq with
  | mk hd => exact hf _ _ _ hd

theorem bind {f : α × σ → Option β} {g : α × σ → Option γ} {S : β → γ → Prop}
    (h : Accompanies (Agree R) x y)
    (hf : ∀ a d d', x = some (a, d) → R d d' → Accompanies S (f (a, d)) (g (a, d'))) :
    Accompanies S (x >>= f) (y >>= g) := by
  refine h.bind fun p q hp hpq => ?_
  cases hpq with
  | mk hd => exact hf _ _ _ hp hd

end Agree

end EntityScript
