import AthenX.Console.Terminal
import AthenX.Lib.CString

/-!
# Escape sequences

`parse_ansi` of `drivers/display/printf.c` prints a string without its escape sequences, and calls
`handle_ansi` for each of them, which may do anything.
-/

namespace AthenX.Vesa

open List Option

/-! ### The visible characters -/

section

open CString

variable {σ : Type*} (handle : ℕ → σ → σ)

/-- The inner loop of `parse_ansi`, and the step over the `m` that ends it. -/
def skipSequence (m : Memory) : ℕ → ℕ → BitVec 32 → Option (ℕ × BitVec 32)
  | 0, _, _ => none
  | k + 1, p, n =>
      if m p ≠ 'm'.toUInt8 ∧ m p ≠ 0 then skipSequence m k (p + 1) (n + 1)
      else if m p ≠ 0 then some (p + 1, n + 1) else some (p, n)

/-- The loop of `parse_ansi` from `p` on, with what is printed and `chars_processed`. What
`handle_ansi` does is arbitrary. -/
def parseLoop (m : Memory) : ℕ → ℕ → BitVec 32 → List UInt8 → σ →
    Option (List UInt8 × BitVec 32 × σ)
  | 0, _, _, _, _ => none
  | k + 1, p, n, out, t =>
      if m p = 0 then some (out, n, t)
      else if m p = 0x1B then
        if m (p + 1) = '['.toUInt8 ∨ m (p + 1) = '('.toUInt8 then
          (skipSequence m k (p + 2) (n + 1 + 1)).bind fun r =>
            parseLoop m k r.1 r.2 out (handle (p + 2) t)
        else parseLoop m k (p + 1) (n + 1) out t
      else parseLoop m k (p + 1) (n + 1) (out ++ [m p]) t

/-- `parse_ansi`. -/
def parseAnsi (m : Memory) (p : ℕ) (t : σ) (fuel : ℕ) : Option (List UInt8 × BitVec 32 × σ) :=
  parseLoop handle m fuel p 0 [] t

/-- What is behind the next `m`. -/
def afterSequence : List UInt8 → List UInt8
  | [] => []
  | c :: s => if c = 'm'.toUInt8 then s else afterSequence s

theorem length_afterSequence_le (s : List UInt8) : (afterSequence s).length ≤ s.length := by
  induction s with
  | nil => exact le_rfl
  | cons c s ih =>
    rw [afterSequence, length_cons]
    split <;> omega

/-- A string without its escape sequences and without any other escape. -/
def visible : List UInt8 → List UInt8
  | [] => []
  | c :: s =>
      if c = 0x1B then
        if s.head? = some '['.toUInt8 ∨ s.head? = some '('.toUInt8 then
          have := length_afterSequence_le s.tail
          visible (afterSequence s.tail)
        else visible s
      else c :: visible s
  termination_by s => s.length
  decreasing_by all_goals simp_all; try omega

theorem skipSequence_spec {m : Memory} {s : List UInt8} {p k : ℕ} (hs : Holds m p s)
    (hk : s.length < k) (n : BitVec 32) :
    ∃ q i, skipSequence m k p n = some (q, n + BitVec.ofNat 32 i) ∧
      Holds m q (afterSequence s) ∧ i + (afterSequence s).length = s.length := by
  induction s generalizing p k n with
  | nil =>
    obtain ⟨k, rfl⟩ := Nat.exists_eq_add_of_lt hk
    refine ⟨p, 0, ?_, hs, rfl⟩
    have hend : m p = 0 := hs
    simp [skipSequence, hend]
  | cons c s ih =>
    obtain ⟨k, rfl⟩ := Nat.exists_eq_succ_of_ne_zero (Nat.ne_zero_of_lt hk)
    obtain ⟨rfl, hc, hs⟩ := hs
    rw [length_cons] at hk ⊢
    by_cases hm : m p = 'm'.toUInt8
    · refine ⟨p + 1, 1, ?_, ?_⟩
      · rw [skipSequence, if_neg fun h => h.1 hm, if_pos hc]
        rfl
      · simpa [afterSequence, hm, Nat.add_comm] using hs
    · obtain ⟨q, i, hq, hrest, hlen⟩ := ih hs (Nat.lt_of_succ_lt_succ hk) (n + 1)
      refine ⟨q, i + 1, ?_, ?_⟩
      · rw [skipSequence, if_pos ⟨hm, hc⟩, hq, BitVec.add_assoc, Nat.add_comm, BitVec.ofNat_add]
        rfl
      · rw [afterSequence, if_neg hm]
        exact ⟨hrest, by omega⟩

theorem head?_of_holds {m : Memory} {s : List UInt8} {p : ℕ} (hs : Holds m p s) {c : UInt8}
    (hc : c ≠ 0) : s.head? = some c ↔ m p = c := by
  cases s with
  | nil => exact ⟨nofun, fun h => absurd (h.symm.trans hs) hc⟩
  | cons d s => rw [List.head?_cons, some_inj, hs.1]

theorem parseLoop_spec {m : Memory} {s : List UInt8} {p k : ℕ} (hs : Holds m p s)
    (hk : s.length < k) (n : BitVec 32) (out : List UInt8) (t : σ) :
    ∃ t', parseLoop handle m k p n out t =
      some (out ++ visible s, n + BitVec.ofNat 32 s.length, t') := by
  have hone (n : BitVec 32) (i : ℕ) : n + 1 + BitVec.ofNat 32 i = n + BitVec.ofNat 32 (i + 1) := by
    rw [BitVec.add_assoc, Nat.add_comm, BitVec.ofNat_add]
    rfl
  fun_induction visible s generalizing p k n out t with
  | case1 =>
    obtain ⟨k, rfl⟩ := Nat.exists_eq_succ_of_ne_zero (Nat.ne_zero_of_lt hk)
    have hend : m p = 0 := hs
    exact ⟨t, by simp [parseLoop, hend]⟩
  | case2 s hseq hlen ih =>
    obtain ⟨k, rfl⟩ := Nat.exists_eq_succ_of_ne_zero (Nat.ne_zero_of_lt hk)
    obtain ⟨hesc, hc, hs⟩ := hs
    have hm : m (p + 1) = '['.toUInt8 ∨ m (p + 1) = '('.toUInt8 :=
      hseq.imp (head?_of_holds hs (by decide)).mp (head?_of_holds hs (by decide)).mp
    cases s with
    | nil => exact absurd hseq (by simp)
    | cons d s =>
      simp only [length_cons, tail_cons] at hk ih ⊢
      obtain ⟨q, i, hq, hrest, hlen⟩ := skipSequence_spec hs.2.2 (k := k) (by omega) (n + 1 + 1)
      obtain ⟨t', ht⟩ := ih hrest (k := k) (by omega) (n + 1 + 1 + BitVec.ofNat 32 i) out
        (handle (p + 2) t)
      refine ⟨t', ?_⟩
      rw [parseLoop, if_neg (hesc ▸ hc), if_pos hesc, if_pos hm, hq, bind_some, ht,
        BitVec.add_assoc, ← BitVec.ofNat_add, hlen, hone, hone]
  | case3 s hseq ih =>
    obtain ⟨k, rfl⟩ := Nat.exists_eq_succ_of_ne_zero (Nat.ne_zero_of_lt hk)
    obtain ⟨hesc, hc, hs⟩ := hs
    have hm : ¬(m (p + 1) = '['.toUInt8 ∨ m (p + 1) = '('.toUInt8) := fun h => hseq
      (h.imp (head?_of_holds hs (by decide)).mpr (head?_of_holds hs (by decide)).mpr)
    obtain ⟨t', ht⟩ := ih hs (Nat.lt_of_succ_lt_succ hk) (n + 1) out t
    exact ⟨t', by rw [parseLoop, if_neg (hesc ▸ hc), if_pos hesc, if_neg hm, ht, hone]; rfl⟩
  | case4 c s hesc ih =>
    obtain ⟨k, rfl⟩ := Nat.exists_eq_succ_of_ne_zero (Nat.ne_zero_of_lt hk)
    obtain ⟨rfl, hc, hs⟩ := hs
    obtain ⟨t', ht⟩ := ih hs (Nat.lt_of_succ_lt_succ hk) (n + 1) (out ++ [m p]) t
    exact ⟨t', by rw [parseLoop, if_neg hc, if_neg hesc, ht, hone, append_assoc]; rfl⟩

/-- **What `parse_ansi` prints**: the string without its escape sequences. -/
theorem parseAnsi_spec {m : Memory} {s : List UInt8} {p fuel : ℕ} (hs : Holds m p s)
    (hfuel : s.length < fuel) (t : σ) :
    ∃ t', parseAnsi handle m p t fuel = some (visible s, BitVec.ofNat 32 s.length, t') := by
  obtain ⟨t', ht⟩ := parseLoop_spec handle hs hfuel 0 [] t
  exact ⟨t', by rw [parseAnsi, ht]; simp⟩

/-- A letter between two sequences, the second one without an end. -/
def sampleText : List UInt8 := [0x1B, 0x5B, 0x33, 0x6D, 0x78, 0x1B, 0x28]

theorem parseAnsi_spec_sampleText : ∃ t', parseAnsi (fun p t => p + t)
    (poke (fun _ => 0) 0 sampleText) 0 0 8 = some ([0x78], 7, t') := by
  have hs : Holds (poke (fun _ => 0) 0 sampleText) 0 sampleText := by
    simp only [Holds, sampleText]
    decide
  have hx : visible sampleText = [0x78] := by
    simp [sampleText, visible, afterSequence, Char.toUInt8]
  exact hx ▸ parseAnsi_spec (fun p t => p + t) hs (by decide) 0

end

end AthenX.Vesa
