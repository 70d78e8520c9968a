import Mathlib

/-!
# Steps on a ring

A position on a ring of `N` places is moved on by `t` places again and again. The positions met are
those with the remainder of the first one modulo `gcd t N`, so the highest one, `top`, is met.
-/

namespace Stride

variable {N t x y v : ℕ}

/-- The position after `i` steps. -/
def pos (N t x i : ℕ) : ℕ := (x + i * t) % N

/-- The highest position. -/
def top (N t x : ℕ) : ℕ := N - Nat.gcd t N + x % Nat.gcd t N

@[simp] theorem pos_zero : pos N t x 0 = x % N := by simp [pos]

theorem pos_succ (i : ℕ) : pos N t x (i + 1) = pos N t (x + t) i := by
  unfold pos
  congr 1
  ring

theorem pos_lt (hN : 0 < N) (i : ℕ) : pos N t x i < N := Nat.mod_lt _ hN

/-- As long as the steps do not go round. -/
theorem pos_eq_of_lt {i : ℕ} (h : x + i * t < N) : pos N t x i = x + i * t := Nat.mod_eq_of_lt h

theorem pos_mod_gcd (i : ℕ) : pos N t x i % Nat.gcd t N = x % Nat.gcd t N := by
  unfold pos
  rw [Nat.mod_mod_of_dvd _ (Nat.gcd_dvd_right t N)]
  obtain ⟨u, hu⟩ := Nat.gcd_dvd_left t N
  have hmul : x + i * t = x + Nat.gcd t N * (i * u) := by
    rw [Nat.mul_left_comm, ← hu]
  rw [hmul, Nat.add_mul_mod_self_left]

theorem le_top (hy : y < N) (hmod : y % Nat.gcd t N = x % Nat.gcd t N) : y ≤ top N t x := by
  have hpos : 0 < Nat.gcd t N := Nat.gcd_pos_of_pos_right t (by omega)
  obtain ⟨u, hu⟩ := Nat.gcd_dvd_right t N
  unfold top
  generalize Nat.gcd t N = g at *
  have hdiv : y / g < u := by
    rw [Nat.div_lt_iff_lt_mul hpos, Nat.mul_comm, ← hu]
    exact hy
  have hmul : g * (y / g + 1) ≤ N := by
    rw [hu]
    exact Nat.mul_le_mul_left g hdiv
  rw [Nat.mul_add] at hmul
  have hsplit := Nat.div_add_mod y g
  omega

theorem pos_le_top (hN : 0 < N) (i : ℕ) : pos N t x i ≤ top N t x :=
  le_top (pos_lt hN i) (pos_mod_gcd i)

theorem top_lt (hN : 0 < N) : top N t x < N := by
  have hpos : 0 < Nat.gcd t N := Nat.gcd_pos_of_pos_right t hN
  have hle : Nat.gcd t N ≤ N := Nat.le_of_dvd hN (Nat.gcd_dvd_right t N)
  have hmod := Nat.mod_lt x hpos
  unfold top
  omega

/-- The highest position is met. -/
theorem exists_pos_eq_top (hN : 0 < N) : ∃ i, pos N t x i = top N t x := by
  have hle : Nat.gcd t N ≤ N := Nat.le_of_dvd hN (Nat.gcd_dvd_right t N)
  rcases hle.lt_or_eq with hlt | heq
  · obtain ⟨u, hu⟩ := Nat.gcd_dvd_right t N
    obtain ⟨n, -, hn⟩ := Nat.exists_mul_mod_eq_gcd hlt
    -- `n` steps move on by the divisor, and this often enough comes to the top
    refine ⟨n * ((u - 1) * (x / Nat.gcd t N + 1)), ?_⟩
    have hsum : x + Nat.gcd t N * ((u - 1) * (x / Nat.gcd t N + 1)) =
        top N t x + N * (x / Nat.gcd t N) := by
      unfold top
      have hsplit := Nat.div_add_mod x (Nat.gcd t N)
      generalize Nat.gcd t N = g at *
      obtain ⟨w, rfl⟩ : ∃ w, u = w + 1 := ⟨u - 1, by
        have : u ≠ 0 := by rintro rfl; omega
        omega⟩
      have hg : g * (w * (x / g + 1)) = g * w * (x / g) + g * w := by ring
      have hN' : N * (x / g) = g * w * (x / g) + g * (x / g) := by rw [hu]; ring
      have htop : N - g = g * w := by rw [hu, Nat.mul_add, Nat.mul_one, Nat.add_sub_cancel]
      rw [Nat.add_sub_cancel]
      omega
    have hmod : (x + n * ((u - 1) * (x / Nat.gcd t N + 1)) * t) % N =
        (x + Nat.gcd t N * ((u - 1) * (x / Nat.gcd t N + 1))) % N := by
      refine Nat.ModEq.add_left x ?_
      have hstep : Nat.ModEq N (t * n) (Nat.gcd t N) := by
        rw [Nat.ModEq, hn, Nat.mod_eq_of_lt hlt]
      have hmul := hstep.mul_right ((u - 1) * (x / Nat.gcd t N + 1))
      rwa [show n * ((u - 1) * (x / Nat.gcd t N + 1)) * t =
        t * n * ((u - 1) * (x / Nat.gcd t N + 1)) by ring]
    rw [pos, hmod, hsum, Nat.add_mul_mod_self_left, Nat.mod_eq_of_lt (top_lt hN)]
  · refine ⟨0, ?_⟩
    rw [pos_zero, top, heq, Nat.sub_self, Nat.zero_add]

/-- A place is passed just if it is below the highest position. -/
theorem exists_lt_pos_iff (hN : 0 < N) : (∃ i, v < pos N t x i) ↔ v < top N t x := by
  constructor
  · rintro ⟨i, hi⟩
    exact hi.trans_le (pos_le_top hN i)
  · intro hv
    obtain ⟨i, hi⟩ := exists_pos_eq_top hN
    exact ⟨i, hi ▸ hv⟩

end Stride
