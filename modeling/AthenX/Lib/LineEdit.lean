import Mathlib

/-!
# A line editor

The text that a sequence of keys produces: a character is appended, and a backspace deletes the last
one if there is any. There is no cursor other than the end of the text.
-/

namespace LineEdit

variable {α : Type*} [DecidableEq α] {nl bs k : α} {cap : ℕ} {text keys : List α}

/-- One key. -/
def press (bs : α) (text : List α) (k : α) : List α :=
  if k = bs then text.dropLast else text ++ [k]

/-- The keys up to the first newline. -/
def edit (nl bs : α) : List α → List α → List α
  | text, [] => text
  | text, k :: keys => if k = nl then text else edit nl bs (press bs text k) keys

/-- The keys up to the first newline, or until `cap` characters are held. -/
def line (nl bs : α) (cap : ℕ) : List α → List α → List α
  | text, [] => text
  | text, k :: keys =>
      if k ≠ nl ∧ text.length < cap then line nl bs cap (press bs text k) keys else text

theorem edit_of_ne (h : k ≠ nl) :
    edit nl bs text (k :: keys) = edit nl bs (press bs text k) keys := if_neg h

@[simp] theorem edit_newline : edit nl bs text (nl :: keys) = text := if_pos rfl

/-- The bound does not matter if it is not reached. -/
theorem line_eq_edit (h : (line nl bs cap text keys).length < cap) :
    line nl bs cap text keys = edit nl bs text keys := by
  induction keys generalizing text with
  | nil => rfl
  | cons k keys ih =>
    unfold line at h ⊢
    split at h
    · next hgo =>
      rw [if_pos hgo, edit_of_ne hgo.1]
      exact ih h
    · next hstop =>
      obtain rfl : k = nl := by
        by_contra hk
        exact hstop ⟨hk, h⟩
      rw [if_neg hstop, edit_newline]

/-- **What holds of the text at all times**: before the first key, and after it. -/
theorem forall_prefix_edit_cons {P : List α → Prop} :
    (∀ ks, ks <+: k :: keys → P (edit nl bs text ks)) ↔
      P text ∧ (k ≠ nl → ∀ ks, ks <+: keys → P (edit nl bs (press bs text k) ks)) := by
  constructor
  · intro h
    refine ⟨h [] List.nil_prefix, fun hk ks hks => ?_⟩
    have hnext := h (k :: ks) (List.cons_prefix_cons.mpr ⟨rfl, hks⟩)
    rwa [edit_of_ne hk] at hnext
  · rintro ⟨hnow, hlater⟩ ks hks
    cases ks with
    | nil => exact hnow
    | cons l ks =>
      obtain ⟨rfl, htail⟩ := List.cons_prefix_cons.mp hks
      by_cases hl : l = nl
      · rw [hl, edit_newline]
        exact hnow
      · rw [edit_of_ne hl]
        exact hlater hl ks htail

theorem length_press_le (bs : α) (text : List α) (k : α) :
    (press bs text k).length ≤ text.length + 1 := by
  unfold press
  split
  · rw [List.length_dropLast]
    omega
  · simp

theorem length_edit_le (nl bs : α) (text keys : List α) :
    (edit nl bs text keys).length ≤ text.length + keys.length := by
  induction keys generalizing text with
  | nil => exact Nat.le_refl _
  | cons k keys ih =>
    unfold edit
    split
    · exact Nat.le_add_right _ _
    · have hpress := length_press_le bs text k
      have hrest := ih (press bs text k)
      rw [List.length_cons]
      omega

end LineEdit
