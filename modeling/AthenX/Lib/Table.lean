import Mathlib

/-!
# A table: an array and the number of its entries in use

The usual way to keep a list in a fixed array: the entries in use are the first ones, a new one goes
behind them, and removing one moves the later ones down.
-/

namespace Table

open Function

variable {α : Type} {a b : ℕ → α} {n : ℕ}

/-- The first `n` entries of an array. -/
def entries (a : ℕ → α) (n : ℕ) : List α := (List.range n).map a

@[simp] theorem length_entries (a : ℕ → α) (n : ℕ) : (entries a n).length = n := by
  simp [entries]

theorem getElem?_entries (a : ℕ → α) {n i : ℕ} (hi : i < n) : (entries a n)[i]? = some (a i) := by
  simp [entries, hi]

theorem entries_congr (h : ∀ i < n, a i = b i) : entries a n = entries b n := by
  refine List.map_congr_left fun i hi => h i (List.mem_range.mp hi)

/-- Writing behind the entries in use appends one. -/
theorem entries_put (a : ℕ → α) (n : ℕ) (x : α) :
    entries (update a n x) (n + 1) = entries a n ++ [x] := by
  have hlow : entries (update a n x) n = entries a n :=
    entries_congr fun i hi => update_of_ne (by omega) x a
  rw [← hlow]
  simp [entries, List.range_succ]

/-- The inner loop of a removal, from entry `j` on, with `k` iterations to go. -/
def shiftDown : ℕ → ℕ → (ℕ → α) → ℕ → α
  | 0, _, a => a
  | k + 1, j, a => shiftDown k (j + 1) (Function.update a j (a (j + 1)))

theorem shiftDown_apply : ∀ (k j : ℕ) (a : ℕ → α) (x : ℕ),
    shiftDown k j a x = if j ≤ x ∧ x < j + k then a (x + 1) else a x := by
  intro k
  induction k with
  | zero =>
    intro j a x
    rw [if_neg (by omega)]
    rfl
  | succ k ih =>
    intro j a x
    rw [shiftDown, ih]
    rcases Nat.lt_trichotomy x j with hx | rfl | hx
    · rw [if_neg (by omega), if_neg (by omega), update_of_ne (by omega)]
    · -- entry `j` has its new value, and the rest of the loop leaves it alone
      rw [if_neg (by omega), if_pos (by omega), update_self]
    · rw [update_of_ne (by omega), update_of_ne (by omega)]
      exact if_congr (by omega) rfl rfl

/-- Removing entry `i` of `n`: clear it, move the later ones down and clear the last. -/
def remove (a : ℕ → α) (i n : ℕ) (null : α) : ℕ → α :=
  Function.update (shiftDown (n - 1 - i) i (Function.update a i null)) (n - 1) null

theorem remove_of_ge (a : ℕ → α) {i j n : ℕ} (hi : i ≤ j) (hj : j < n - 1) (null : α) :
    remove a i n null j = a (j + 1) := by
  rw [remove, update_of_ne (by omega), shiftDown_apply, if_pos (by omega), update_of_ne (by omega)]

theorem entries_remove (a : ℕ → α) {i n : ℕ} (hi : i < n) (null : α) :
    entries (remove a i n null) (n - 1) = (entries a n).eraseIdx i := by
  refine List.ext_getElem? fun k => ?_
  by_cases hk : k < n - 1
  · have hne : k ≠ n - 1 := by omega
    rw [getElem?_entries _ hk, remove, update_of_ne hne, shiftDown_apply]
    rcases Nat.lt_or_ge k i with hki | hki
    · rw [if_neg (by omega), update_of_ne (by omega), List.getElem?_eraseIdx_of_lt hki,
        getElem?_entries a (by omega)]
    · rw [if_pos (by omega), update_of_ne (by omega), List.getElem?_eraseIdx_of_ge hki,
        getElem?_entries a (by omega)]
  · have hlen : ((entries a n).eraseIdx i).length = n - 1 := by
      rw [List.length_eraseIdx_of_lt (by simpa using hi), length_entries]
    rw [List.getElem?_eq_none (by simpa using hk), List.getElem?_eq_none (by omega)]

end Table
