import Mathlib

/-!
# Linear congruential generators

`x ↦ a x + c` modulo `2 ^ k` runs through all residues when `a` is one modulo four and `c` is odd.
`2 ^ j` steps are again of this form; that they add an odd multiple of `2 ^ j` is an induction that
squares the step.
-/

namespace AthenX.Congruential

open Function

variable {R : Type*} [CommRing R] (a c : R)

/-- A step of the generator. -/
def affine (x : R) : R := a * x + c

/-- The coefficients of `2 ^ j` steps. -/
def doubled : ℕ → R × R
  | 0 => (a, c)
  | j + 1 => ((doubled j).1 * (doubled j).1, ((doubled j).1 + 1) * (doubled j).2)

theorem iterate_two_pow (j : ℕ) (x : R) :
    (affine a c)^[2 ^ j] x = (doubled a c j).1 * x + (doubled a c j).2 := by
  induction j generalizing x with
  | zero => rfl
  | succ j ih =>
    rw [pow_succ, mul_two, iterate_add_apply, ih, ih]
    simp only [doubled]
    ring

/-- The `2 ^ j` steps from a multiplier `4 t + 1` and an increment `2 s + 1`. -/
theorem doubled_form (t s : R) (j : ℕ) :
    ∃ t' s' : R, doubled (4 * t + 1) (2 * s + 1) j =
      (1 + 2 ^ (j + 2) * t', 2 ^ j * (2 * s' + 1)) := by
  induction j with
  | zero => exact ⟨t, s, Prod.ext (by simp only [doubled]; ring) (by simp only [doubled]; ring)⟩
  | succ j ih =>
    obtain ⟨t', s', h⟩ := ih
    refine ⟨t' + 2 ^ (j + 1) * t' * t', s' + 2 ^ j * t' * (2 * s' + 1), Prod.ext ?_ ?_⟩
    · simp only [doubled, h]
      ring
    · simp only [doubled, h]
      ring

/-- **Full period.** -/
theorem minimalPeriod_eq (k : ℕ) (t s x : ZMod (2 ^ (k + 1))) :
    minimalPeriod (affine (4 * t + 1) (2 * s + 1)) x = 2 ^ (k + 1) := by
  have hzero : (2 : ZMod (2 ^ (k + 1))) ^ (k + 1) = 0 := by
    exact_mod_cast ZMod.natCast_self (2 ^ (k + 1))
  have hne : (2 : ZMod (2 ^ (k + 1))) ^ k ≠ 0 := by
    intro h
    have h : ((2 ^ k : ℕ) : ZMod (2 ^ (k + 1))) = 0 := by exact_mod_cast h
    have hle := Nat.le_of_dvd (Nat.two_pow_pos k) ((ZMod.natCast_eq_zero_iff _ _).1 h)
    rw [pow_succ] at hle
    have := Nat.two_pow_pos k
    omega
  have : Fact (Nat.Prime 2) := ⟨Nat.prime_two⟩
  apply minimalPeriod_eq_prime_pow
  · intro h
    obtain ⟨t', s', hf⟩ := doubled_form t s k
    have h : (affine (4 * t + 1) (2 * s + 1))^[2 ^ k] x = x := h
    rw [iterate_two_pow, hf] at h
    exact hne (by linear_combination h - (2 * t' * x + s') * hzero)
  · obtain ⟨t', s', hf⟩ := doubled_form t s (k + 1)
    show (affine (4 * t + 1) (2 * s + 1))^[2 ^ (k + 1)] x = x
    rw [iterate_two_pow, hf]
    linear_combination (4 * t' * x + 2 * s' + 1) * hzero

/-- A map of full period runs through all points. -/
theorem bijOn_iterate {n : ℕ} [NeZero n] {f : ZMod n → ZMod n} {x : ZMod n}
    (h : minimalPeriod f x = n) : Set.BijOn (fun i => f^[i] x) (Set.Iio n) Set.univ := by
  have hinj := iterate_injOn_Iio_minimalPeriod (f := f) (x := x)
  rw [h] at hinj
  refine ⟨Set.mapsTo_univ _ _, hinj, fun y _ => ?_⟩
  have himage : (Finset.range n).image (fun i => f^[i] x) = Finset.univ := by
    refine Finset.eq_univ_of_card _ ?_
    rw [Finset.card_image_of_injOn (by simpa using hinj), Finset.card_range, ZMod.card]
  obtain ⟨i, hi, hy⟩ := Finset.mem_image.1 (himage ▸ Finset.mem_univ y)
  exact ⟨i, Finset.mem_range.1 hi, hy⟩

end AthenX.Congruential
