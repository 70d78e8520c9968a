import Mathlib

/-!
# Computations that may not come back

A computation in `Option` whose `none` stands for a call that does not return. `Yields Q P o` says
both what holds of a value and why there may be none: `o` has a value with `P`, or it has none and
`Q` holds. One statement serves in both directions.
-/

namespace Partial

variable {α β : Type}

/-- The computation has a value with `P`, or `Q` holds and it has none. -/
def Yields (Q : Prop) (P : α → Prop) (o : Option α) : Prop :=
  (o = none ∧ Q) ∨ ∃ a, o = some a ∧ P a

namespace Yields

variable {Q Q' : Prop} {P P' : α → Prop} {o : Option α} {a : α}

theorem of_some (h : P a) : Yields Q P (some a) := .inr ⟨a, rfl, h⟩

theorem of_none (h : Q) : Yields Q P none := .inl ⟨rfl, h⟩

theorem mono (h : Yields Q P o) (hQ : Q → Q') (hP : ∀ a, P a → P' a) : Yields Q' P' o := by
  rcases h with ⟨ho, hq⟩ | ⟨a, ho, hp⟩
  · exact .inl ⟨ho, hQ hq⟩
  · exact .inr ⟨a, ho, hP a hp⟩

/-- **Sequencing.** -/
theorem bind {R : β → Prop} {f : α → Option β} (h : Yields Q P o)
    (hf : ∀ a, P a → Yields Q R (f a)) : Yields Q R (o >>= f) := by
  rcases h with ⟨rfl, hq⟩ | ⟨a, rfl, hp⟩
  · exact .inl ⟨rfl, hq⟩
  · exact hf a hp

/-- A computation whose reason to fail is excluded has a value. -/
theorem exists_of_not (h : Yields Q P o) (hq : ¬Q) : ∃ a, o = some a ∧ P a :=
  h.resolve_left fun hc => hq hc.2

/-- What holds of the value, when there is one. -/
theorem of_eq_some (h : Yields Q P o) (ho : o = some a) : P a := by
  rcases h with ⟨hnone, -⟩ | ⟨b, hb, hp⟩
  · rw [ho] at hnone
    cases hnone
  · rw [ho] at hb
    cases hb
    exact hp

end Yields

end Partial
