import Mathlib

/-!
# Page arithmetic on 32-bit words

Shifts and masks by a page of `2 ^ 12` bytes, and of a table of `2 ^ 10` entries, as division and
remainder of the value of the word.
-/

namespace Word32

/-! ### Shifts and masks -/

section

variable (x : UInt32)

include x

theorem toNat_page : (x >>> 12).toNat = x.toNat / 4096 := by
  rw [UInt32.toNat_shiftRight, show (12 : UInt32).toNat % 32 = 12 by decide,
    Nat.shiftRight_eq_div_pow]

theorem toNat_table : (x >>> 22).toNat = x.toNat / 4194304 := by
  rw [UInt32.toNat_shiftRight, show (22 : UInt32).toNat % 32 = 22 by decide,
    Nat.shiftRight_eq_div_pow]

theorem toNat_word : (x >>> 2).toNat = x.toNat / 4 := by
  rw [UInt32.toNat_shiftRight, show (2 : UInt32).toNat % 32 = 2 by decide,
    Nat.shiftRight_eq_div_pow]

theorem toNat_offset : (x &&& 0xFFF).toNat = x.toNat % 4096 := by
  exact Nat.and_two_pow_sub_one_eq_mod x.toNat 12

theorem toNat_slot : (x &&& 0x3FF).toNat = x.toNat % 1024 := by
  exact Nat.and_two_pow_sub_one_eq_mod x.toNat 10

theorem toNat_bit0 : (x &&& 1).toNat = x.toNat % 2 := by
  exact Nat.and_two_pow_sub_one_eq_mod x.toNat 1

/-- The address of the page a byte lies in. -/
theorem toNat_aligned : (x &&& 0xFFFFF000).toNat = x.toNat / 4096 * 4096 := by
  have hx : x.toNat < 2 ^ 32 := x.toNat_lt
  rw [UInt32.toNat_and, show (0xFFFFF000 : UInt32).toNat = (2 ^ 20 - 1) * 2 ^ 12 by decide,
    show (4096 : ℕ) = 2 ^ 12 by decide]
  apply Nat.eq_of_testBit_eq
  intro i
  rw [Nat.testBit_and, Nat.testBit_mul_two_pow, Nat.testBit_mul_two_pow,
    Nat.testBit_two_pow_sub_one, Nat.testBit_div_two_pow]
  by_cases hi : 12 ≤ i
  · by_cases hi' : i < 32
    · simp [hi, show i - 12 < 20 by omega]
    · have : x.toNat.testBit i = false :=
        Nat.testBit_lt_two_pow (lt_of_lt_of_le hx (Nat.pow_le_pow_right (by decide) (by omega)))
      simp [hi, this]
  · simp [hi]

end

/-! ### Flags below the page number -/

theorem page_or (x : UInt32) {f : UInt32} (hf : f.toNat < 4096) :
    (x ||| f).toNat / 4096 = x.toNat / 4096 := by
  rw [UInt32.toNat_or, show (4096 : ℕ) = 2 ^ 12 by decide, ← Nat.shiftRight_eq_div_pow,
    Nat.shiftRight_or_distrib, Nat.shiftRight_eq_div_pow, Nat.shiftRight_eq_div_pow,
    Nat.div_eq_of_lt (a := f.toNat) (by simpa using hf), Nat.or_zero]

/-- Flags are added to the address of a page. -/
theorem toNat_or_of_aligned {x f : UInt32} (hx : x.toNat % 4096 = 0) (hf : f.toNat < 4096) :
    (x ||| f).toNat = x.toNat + f.toNat := by
  have hsum := Nat.two_pow_add_eq_or_of_lt (i := 12) hf (x.toNat / 4096)
  rw [show 2 ^ 12 * (x.toNat / 4096) = x.toNat by omega] at hsum
  rw [UInt32.toNat_or, hsum]

theorem aligned_page (x : UInt32) : (x &&& 0xFFFFF000).toNat / 4096 = x.toNat / 4096 := by
  rw [toNat_aligned]; omega

/-- A word with bit `0` set is odd. -/
theorem odd_or_one (x : UInt32) : (x ||| 1).toNat % 2 = 1 := by
  simp

theorem odd_or (x y : UInt32) (hx : x.toNat % 2 = 1) : (x ||| y).toNat % 2 = 1 := by
  have := Nat.testBit_or x.toNat y.toNat 0
  simp only [Nat.testBit_zero, hx, decide_true, Bool.true_or, decide_eq_true_eq] at this
  exact this

/-! ### Sums -/

/-- The parity of a sum, which the wrap-around does not change. -/
theorem parity_add (x y : UInt32) : (x + y).toNat % 2 = (x.toNat + y.toNat) % 2 := by
  rw [UInt32.toNat_add]
  omega

theorem ne_zero_of_toNat_pos {x : UInt32} (h : 0 < x.toNat) : x ≠ 0 := by
  rintro rfl
  exact Nat.lt_irrefl 0 h

theorem toInt_sub_one {q : Int32} (h : -2 ^ 31 < q.toInt) : (q - 1).toInt = q.toInt - 1 := by
  have hone : (1 : Int32).toInt = 1 := rfl
  have hlt := q.toInt_lt
  rw [Int32.toInt_sub]
  refine Int.bmod_eq_of_le ?_ ?_
  · omega
  · omega

end Word32
