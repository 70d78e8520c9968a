import Mathlib

/-!
# The checksum of the headers

`calculate_checksum` of `drivers/net/utils.c` adds 16-bit words in 32 bits, folds the sum and
inverts it. The folded sum is the sum modulo 65535, with 65535 for zero unless all words are zero.
Up to 65537 words the sum does not overflow.
-/

namespace AthenX.Net

open List

/-! ### The source -/

theorem toNat_carry (sum : UInt32) : (sum >>> 16).toNat = sum.toNat / 65536 := by
  exact Nat.shiftRight_eq_div_pow _ 16

theorem toNat_addCarry (sum : UInt32) : ((sum &&& (0xFFFF : UInt32)) + sum >>> 16).toNat =
    sum.toNat % 65536 + sum.toNat / 65536 := by
  have hlow : (sum &&& (0xFFFF : UInt32)).toNat = sum.toNat % 65536 := by
    exact Nat.and_two_pow_sub_one_eq_mod sum.toNat 16
  have hlt := sum.toNat_lt
  rw [UInt32.toNat_add, toNat_carry]
  omega

theorem carry_eq_zero_iff (sum : UInt32) : sum >>> 16 = 0 ↔ sum.toNat < 65536 := by
  rw [← UInt32.toNat_inj, toNat_carry, UInt32.toNat_zero]
  omega

/-- The `while` loop, which adds the carries. -/
def foldSum (sum : UInt32) : UInt32 :=
  if sum >>> 16 = 0 then sum else foldSum ((sum &&& (0xFFFF : UInt32)) + sum >>> 16)
termination_by sum.toNat
decreasing_by
  rw [toNat_addCarry]
  simp only [carry_eq_zero_iff] at *
  omega

/-- The loop over the words. -/
def sumWords (buf : List UInt16) : UInt32 := buf.foldl (fun sum w => sum + w.toUInt32) 0

/-- `calculate_checksum`. -/
def calculateChecksum (buf : List UInt16) : UInt16 := ~~~ (foldSum (sumWords buf)).toUInt16

/-- The two bytes of a word, exchanged. -/
def swapBytes (w : UInt16) : UInt16 := w <<< 8 ||| w >>> 8

/-! ### Sums modulo 65535 -/

/-- The representative of a sum modulo 65535, which is 0 for zero only. -/
def folded (n : ℕ) : ℕ := if n = 0 then 0 else (n - 1) % 65535 + 1

theorem toNat_foldSum (sum : UInt32) : (foldSum sum).toNat = folded sum.toNat := by
  fun_induction foldSum sum with
  | case1 sum h =>
    rw [carry_eq_zero_iff] at h
    unfold folded
    split <;> omega
  | case2 sum h ih =>
    rw [carry_eq_zero_iff] at h
    rw [ih, toNat_addCarry]
    unfold folded
    split <;> split <;> omega

/-- The sum over the integers. -/
def total (buf : List UInt16) : ℕ := (buf.map UInt16.toNat).sum

section

variable {buf buf' : List UInt16} {w : UInt16} {i : ℕ}

theorem total_le (buf : List UInt16) : total buf ≤ buf.length * 65535 := by
  induction buf with
  | nil => exact Nat.zero_le _
  | cons w buf ih =>
    have hlt := w.toNat_lt
    rw [length_cons, Nat.add_one_mul]
    exact Nat.add_comm _ 65535 ▸ Nat.add_le_add (by omega) ih

theorem toNat_sumWords (hlen : buf.length ≤ 65537) : (sumWords buf).toNat = total buf := by
  have hfold : ∀ (buf : List UInt16) (sum : UInt32), sum.toNat + total buf < 2 ^ 32 →
      (buf.foldl (fun sum w => sum + w.toUInt32) sum).toNat = sum.toNat + total buf := by
    intro buf
    induction buf with
    | nil => exact fun _ _ => rfl
    | cons w buf ih =>
      intro sum hlt
      rw [total, List.map_cons, List.sum_cons, ← total] at hlt ⊢
      have hadd : (sum + w.toUInt32).toNat = sum.toNat + w.toNat := by
        rw [UInt32.toNat_add, UInt16.toNat_toUInt32]
        exact Nat.mod_eq_of_lt (by omega)
      rw [List.foldl_cons, ih _ (by omega), hadd, Nat.add_assoc]
  have hle := total_le buf
  rw [sumWords, hfold buf 0 (by rw [UInt32.toNat_zero]; omega), UInt32.toNat_zero, Nat.zero_add]

/-- **The checksum** as a number. -/
theorem toNat_calculateChecksum (hlen : buf.length ≤ 65537) :
    (calculateChecksum buf).toNat = 65535 - folded (total buf) := by
  have hlt : folded (total buf) < 65536 := by
    unfold folded
    split <;> omega
  rw [calculateChecksum, UInt16.toNat_not, UInt32.toNat_toUInt16, toNat_foldSum,
    toNat_sumWords hlen, Nat.mod_eq_of_lt hlt]
  rfl

theorem total_set (hi : buf[i]? = some 0) (w : UInt16) :
    total (buf.set i w) = total buf + w.toNat := by
  induction buf generalizing i with
  | nil => exact nomatch hi
  | cons v buf ih =>
    cases i with
    | zero =>
      cases hi
      simp [total, Nat.add_comm]
    | succ i =>
      have := ih hi
      simp only [total, set_cons_succ, map_cons, sum_cons] at this ⊢
      omega

theorem toNat_swapBytes (w : UInt16) :
    (swapBytes w).toNat = w.toNat % 256 * 256 + w.toNat / 256 := by
  have hlt := w.toNat_lt
  have hright : (w >>> 8).toNat = w.toNat / 256 := by
    exact Nat.shiftRight_eq_div_pow _ 8
  have hleft : (w <<< 8).toNat = 2 ^ 8 * (w.toNat % 256) := by
    change w.toNat <<< 8 % 2 ^ 16 = _
    omega
  rw [swapBytes, UInt16.toNat_or, hleft, hright,
    ← Nat.two_pow_add_eq_or_of_lt (show w.toNat / 256 < 2 ^ 8 by omega), Nat.mul_comm]

theorem total_swapBytes (buf : List UInt16) :
    total (buf.map swapBytes) % 65535 = 256 * total buf % 65535 ∧
      (total (buf.map swapBytes) = 0 ↔ total buf = 0) := by
  induction buf with
  | nil => exact ⟨rfl, Iff.rfl⟩
  | cons w buf ih =>
    have hw := toNat_swapBytes w
    simp only [total, map_cons, sum_cons] at ih ⊢
    omega

theorem calculateChecksum_set (hlen : buf.length ≤ 65537) (hi : buf[i]? = some 0) :
    calculateChecksum (buf.set i (calculateChecksum buf)) = 0 := by
  rw [← UInt16.toNat_inj, toNat_calculateChecksum (by rw [length_set]; exact hlen),
    total_set hi, toNat_calculateChecksum hlen]
  unfold folded
  split <;> split <;> simp only [UInt16.toNat_zero] <;> omega

end

/-- **The laws of the checksum**: a header with its checksum verifies, the order of the words does
not matter, and exchanging their bytes exchanges those of the checksum. -/
theorem calculateChecksum_laws (buf : List UInt16) (hlen : buf.length ≤ 65537) :
    (∀ i, buf[i]? = some 0 → calculateChecksum (buf.set i (calculateChecksum buf)) = 0) ∧
    (∀ buf', buf.Perm buf' → calculateChecksum buf' = calculateChecksum buf) ∧
    calculateChecksum (buf.map swapBytes) = swapBytes (calculateChecksum buf) := by
  refine ⟨fun i => calculateChecksum_set hlen, fun buf' hperm => ?_, ?_⟩
  · rw [← UInt16.toNat_inj, toNat_calculateChecksum hlen,
      toNat_calculateChecksum (hperm.length_eq ▸ hlen), total, total,
      (hperm.map UInt16.toNat).sum_eq]
  · obtain ⟨hmod, hzero⟩ := total_swapBytes buf
    rw [← UInt16.toNat_inj, toNat_calculateChecksum (by rw [length_map]; exact hlen),
      toNat_swapBytes, toNat_calculateChecksum hlen]
    unfold folded
    split <;> split <;> omega

/-- A header of two words and a place for the checksum. -/
theorem calculateChecksum_laws_header :
    calculateChecksum ([0x4500, 0xFFFF, 0].set 2 (calculateChecksum [0x4500, 0xFFFF, 0])) = 0 :=
  (calculateChecksum_laws [0x4500, 0xFFFF, 0] (by decide)).1 2 rfl

end AthenX.Net
