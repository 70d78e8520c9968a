import Mathlib

/-!
# Numbers of variable length

`decode_uleb128` and `decode_sleb128` of `kernel/dwarf/dwarf.c`. A number is a sequence of bytes
with seven bits each, the lowest ones first, and every byte but the last one has its high bit set.

The bytes from the pointer on are a list, and reading behind its end gives `none`. A shift is taken
modulo 32.
-/

namespace AthenX.Dwarf

open List UInt32

/-! ### The source -/

/-- The loop of both functions: the result, the last byte, its shift and the bytes read. -/
def lebLoop : List UInt8 → UInt32 → UInt32 → ℕ → Option (UInt32 × UInt8 × UInt32 × ℕ)
  | [], _, _, _ => none
  | byte :: ptr, result, shift, n =>
      let result := result ||| (byte &&& 0x7f).toUInt32 <<< shift
      if byte &&& 0x80 = 0 then some (result, byte, shift, n + 1)
      else lebLoop ptr result (shift + 7) (n + 1)

/-- `decode_uleb128`: the value, and the number of bytes. -/
def decodeUleb128 (ptr : List UInt8) : Option (UInt32 × ℕ) :=
  (lebLoop ptr 0 0 0).map fun (result, _, _, n) => (result, n)

/-- `decode_sleb128`. -/
def decodeSleb128 (ptr : List UInt8) : Option (Int32 × ℕ) :=
  (lebLoop ptr 0 0 0).map fun (result, byte, shift, n) =>
    let shift := shift + 7
    let result := if shift < 32 ∧ byte &&& 0x40 ≠ 0 then result ||| -(1 <<< shift) else result
    (result.toInt32, n)

/-! ### The encoding -/

/-- The high bit is set in all bytes but the last one. -/
def Terminated : List UInt8 → Prop
  | [] => False
  | [b] => b.toNat < 128
  | b :: bs => 128 ≤ b.toNat ∧ Terminated bs

/-- The number that the seven bits of each byte make. -/
def unsignedValue : List UInt8 → ℕ
  | [] => 0
  | b :: bs => b.toNat % 128 + 128 * unsignedValue bs

/-- The same in two's complement, where bit 6 of the last byte is the sign. -/
def signedValue (bs : List UInt8) : ℤ :=
  unsignedValue bs - if 64 ≤ (bs.getLastD 0).toNat % 128 then 128 ^ bs.length else 0

/-! ### Bits -/

section

variable {b : UInt8} {result shift : UInt32} {bs : List UInt8} {j n : ℕ}

theorem toNat_and_7f (b : UInt8) : (b &&& 0x7f).toUInt32.toNat = b.toNat % 128 := by
  exact Nat.and_two_pow_sub_one_eq_mod b.toNat 7

theorem and_80_eq_zero_iff (b : UInt8) : b &&& 0x80 = 0 ↔ b.toNat < 128 := by
  have hb := b.toNat_lt
  rw [← UInt8.toNat_inj]
  change b.toNat &&& 2 ^ 7 = 0 ↔ _
  rw [Nat.and_two_pow, Nat.testBit_eq_decide_div_mod_eq]
  by_cases h : b.toNat < 128
  · simp [h, Nat.div_eq_of_lt h]
  · simp [show b.toNat / 128 = 1 by omega]
    omega

theorem and_40_eq_zero_iff (b : UInt8) : b &&& 0x40 = 0 ↔ b.toNat % 128 < 64 := by
  rw [← UInt8.toNat_inj]
  change b.toNat &&& 2 ^ 6 = 0 ↔ _
  rw [Nat.and_two_pow, Nat.testBit_eq_decide_div_mod_eq]
  by_cases h : b.toNat % 128 < 64
  · simp [show b.toNat / 64 % 2 = 0 by omega]
    omega
  · simp [show b.toNat / 64 % 2 = 1 by omega]
    omega

theorem toNat_ofNat_shift (hj : j < 5) : (UInt32.ofNat (7 * j)).toNat = 7 * j :=
  toNat_ofNat_of_lt' (show 7 * j < 2 ^ 32 by omega)

theorem ofNat_shift_add (j : ℕ) : UInt32.ofNat (7 * j) + 7 = UInt32.ofNat (7 * (j + 1)) := by
  rw [Nat.mul_add, UInt32.ofNat_add]
  rfl

theorem toNat_or_shift (b : UInt8) (hj : j < 5) (hr : result.toNat < 2 ^ (7 * j)) :
    (result ||| (b &&& 0x7f).toUInt32 <<< UInt32.ofNat (7 * j)).toNat =
      (result.toNat + 2 ^ (7 * j) * (b.toNat % 128)) % 2 ^ 32 := by
  obtain ⟨k, hk⟩ : ∃ k, 32 = 7 * j + k := ⟨32 - 7 * j, by omega⟩
  rw [UInt32.toNat_or, UInt32.toNat_shiftLeft, toNat_ofNat_shift hj,
    Nat.mod_eq_of_lt (show 7 * j < 32 by omega), Nat.shiftLeft_eq, toNat_and_7f, hk, Nat.pow_add,
    Nat.mul_comm, Nat.mul_mod_mul_left, Nat.or_comm, ← Nat.two_pow_add_eq_or_of_lt hr,
    Nat.add_comm, Nat.mod_mul,
    Nat.add_mul_mod_self_left, Nat.mod_eq_of_lt hr, Nat.add_mul_div_left _ _ (Nat.two_pow_pos _),
    Nat.div_eq_of_lt hr, Nat.zero_add]

theorem toNat_or_neg (hj : j < 5) (hr : result.toNat < 2 ^ (7 * j)) :
    (result ||| -(1 <<< UInt32.ofNat (7 * j))).toNat =
      result.toNat + (2 ^ 32 - 2 ^ (7 * j)) := by
  obtain ⟨k, hk⟩ : ∃ k, 32 = 7 * j + k := ⟨32 - 7 * j, by omega⟩
  have hlt : 2 ^ (7 * j) < 2 ^ 32 := Nat.pow_lt_pow_right (by decide) (by omega)
  have hbit : ((1 : UInt32) <<< UInt32.ofNat (7 * j)).toNat = 2 ^ (7 * j) := by
    rw [UInt32.toNat_shiftLeft, toNat_ofNat_shift hj,
      Nat.mod_eq_of_lt (show 7 * j < 32 by omega), Nat.shiftLeft_eq, UInt32.toNat_one, Nat.one_mul,
      Nat.mod_eq_of_lt hlt]
  have hneg : (-((1 : UInt32) <<< UInt32.ofNat (7 * j))).toNat = 2 ^ (7 * j) * (2 ^ k - 1) := by
    rw [UInt32.toNat_neg, hbit, Nat.mul_sub, ← Nat.pow_add, ← hk, UInt32.size, Nat.mul_one]
    exact Nat.mod_eq_of_lt (by omega)
  rw [UInt32.toNat_or, hneg, Nat.or_comm, ← Nat.two_pow_add_eq_or_of_lt hr, Nat.mul_sub,
    ← Nat.pow_add, ← hk, Nat.mul_one, Nat.add_comm]

theorem toInt32_ofNat {v : Int32} {k : ℤ} (h : (n : ℤ) = v.toInt + (4294967296 : ℕ) * k) :
    (UInt32.ofNat n).toInt32 = v := by
  rw [UInt32.toInt32_ofNat', ← Int32.toInt_inj, Int32.toInt_ofNat', h, Int.add_mul_bmod_self_left]
  exact Int32.toInt_bmod v

/-! ### The loop -/

/-- **The loop** from the byte with index `j` on, at most up to the fifth one. -/
theorem lebLoop_append (rest : List UInt8) (hterm : Terminated bs) (hj : j + bs.length ≤ 5)
    (hr : result.toNat < 2 ^ (7 * j)) :
    lebLoop (bs ++ rest) result (UInt32.ofNat (7 * j)) n =
      some (UInt32.ofNat (result.toNat + 2 ^ (7 * j) * unsignedValue bs), bs.getLastD 0,
        UInt32.ofNat (7 * (j + bs.length - 1)), n + bs.length) := by
  induction bs generalizing j result n with
  | nil => exact hterm.elim
  | cons b bs ih =>
    rw [length_cons] at hj
    have hor := toNat_or_shift b (show j < 5 by omega) hr
    cases bs with
    | nil =>
      have hend := (and_80_eq_zero_iff b).mpr hterm
      have hresult : result ||| (b &&& 0x7f).toUInt32 <<< UInt32.ofNat (7 * j) =
          UInt32.ofNat (result.toNat + 2 ^ (7 * j) * unsignedValue [b]) := by
        rw [← UInt32.toNat_inj, hor]
        rfl
      rw [singleton_append, lebLoop, if_pos hend, hresult]
      rfl
    | cons c bs =>
      have hgo : b &&& 0x80 ≠ 0 := fun h => by
        have := (and_80_eq_zero_iff b).mp h
        have := hterm.1
        omega
      rw [length_cons] at hj
      -- up to here the result has at most 28 bits
      have hpow : 2 ^ (7 * (j + 1)) = 2 ^ (7 * j) * 128 := by rw [Nat.mul_add, Nat.pow_add]
      have hle : 2 ^ (7 * (j + 1)) ≤ 2 ^ 28 := Nat.pow_le_pow_right (by decide) (by omega)
      have hbits : 2 ^ (7 * j) * (b.toNat % 128) ≤ 2 ^ (7 * j) * 127 :=
        Nat.mul_le_mul_left _ (by omega)
      rw [Nat.mod_eq_of_lt (by omega)] at hor
      have hnext := ih (n := n + 1) (j := j + 1) hterm.2 (by rw [length_cons]; omega)
        (show (result ||| (b &&& 0x7f).toUInt32 <<< UInt32.ofNat (7 * j)).toNat < _ by omega)
      have hvalue : result.toNat + 2 ^ (7 * j) * (b.toNat % 128) +
          2 ^ (7 * j) * 128 * unsignedValue (c :: bs) =
          result.toNat + 2 ^ (7 * j) * unsignedValue (b :: c :: bs) := by
        rw [unsignedValue.eq_2 b]
        ring
      rw [cons_append, lebLoop, if_neg hgo, ofNat_shift_add, hnext, hor, hpow, hvalue,
        Nat.add_right_comm, Nat.add_right_comm n]
      rfl

theorem unsignedValue_lt (bs : List UInt8) : unsignedValue bs < 2 ^ (7 * bs.length) := by
  induction bs with
  | nil => exact Nat.one_pos
  | cons b bs ih =>
    rw [unsignedValue, length_cons, Nat.mul_add, Nat.pow_add]
    omega

theorem lebLoop_start (rest : List UInt8) (hterm : Terminated bs) (hlen : bs.length ≤ 5) :
    lebLoop (bs ++ rest) 0 0 0 = some (UInt32.ofNat (unsignedValue bs), bs.getLastD 0,
      UInt32.ofNat (7 * (bs.length - 1)), bs.length) := by
  have hr : (0 : UInt32).toNat < 2 ^ (7 * 0) := Nat.one_pos
  have hloop := lebLoop_append (n := 0) rest hterm (by omega) hr
  rw [UInt32.toNat_zero, Nat.zero_add, Nat.pow_zero, Nat.one_mul, Nat.zero_add] at hloop
  exact hloop

/-- The sign is extended up to the fourth byte. -/
theorem toInt32_signed {v : Int32} (hlen : bs.length ≤ 5) (hv : signedValue bs = v.toInt) :
    (if UInt32.ofNat (7 * bs.length) < 32 ∧ 64 ≤ (bs.getLastD 0).toNat % 128 then
      UInt32.ofNat (unsignedValue bs) ||| -(1 <<< UInt32.ofNat (7 * bs.length))
      else UInt32.ofNat (unsignedValue bs)).toInt32 = v := by
  have hlt := unsignedValue_lt bs
  have hpow : (128 : ℤ) ^ bs.length = (2 ^ (7 * bs.length) : ℕ) := by
    rw [Nat.pow_mul]
    rfl
  rw [signedValue] at hv
  by_cases hsign : 64 ≤ (bs.getLastD 0).toNat % 128
  · rw [if_pos hsign] at hv
    by_cases hfour : bs.length < 5
    · have hle : 2 ^ (7 * bs.length) ≤ 2 ^ 28 := Nat.pow_le_pow_right (by decide) (by omega)
      have hvalue : (UInt32.ofNat (unsignedValue bs)).toNat = unsignedValue bs :=
        toNat_ofNat_of_lt' (show _ < 2 ^ 32 by omega)
      have hor := toNat_or_neg hfour (by rw [hvalue]; exact hlt)
      have hshift : UInt32.ofNat (7 * bs.length) < 32 := by
        rw [lt_iff_toNat_lt, toNat_ofNat_shift hfour]
        exact show 7 * bs.length < 32 by omega
      rw [if_pos ⟨hshift, hsign⟩, ← UInt32.ofNat_toNat (x := _ ||| _)]
      exact toInt32_ofNat (k := 1) (by omega)
    · have hfive : bs.length = 5 := by omega
      rw [if_neg fun h => absurd h.1 (by rw [hfive]; decide)]
      rw [hfive] at hv
      exact toInt32_ofNat (k := 8) (by omega)
  · rw [if_neg hsign] at hv
    rw [if_neg fun h => hsign h.2]
    exact toInt32_ofNat (k := 0) (by omega)

end

/-- **A number of at most five bytes is decoded**, whatever is behind it. One without a sign may be
padded with zeros. -/
theorem decode_leb128 (bs rest : List UInt8) (hterm : Terminated bs) (hlen : bs.length ≤ 5) :
    (∀ v : UInt32, unsignedValue bs = v.toNat →
      decodeUleb128 (bs ++ rest) = some (v, bs.length)) ∧
    ∀ v : Int32, signedValue bs = v.toInt →
      decodeSleb128 (bs ++ rest) = some (v, bs.length) := by
  have hloop := lebLoop_start rest hterm hlen
  constructor
  · intro v hv
    rw [decodeUleb128, hloop, hv, UInt32.ofNat_toNat]
    rfl
  · intro v hv
    have hpos : 0 < bs.length := length_pos_iff.mpr fun hnil => by
      rw [hnil] at hterm
      exact hterm
    have hshift : UInt32.ofNat (7 * (bs.length - 1)) + 7 = UInt32.ofNat (7 * bs.length) := by
      rw [ofNat_shift_add, Nat.sub_add_cancel hpos]
    rw [decodeSleb128, hloop, Option.map_some]
    simp only [hshift, ne_eq, and_40_eq_zero_iff, Nat.not_lt, toInt32_signed hlen hv]

/-- The numbers 300, padded to three bytes, and -2. -/
theorem decode_leb128_samples :
    decodeUleb128 ([0xAC, 0x82, 0x00] ++ [0xFF]) = some (300, 3) ∧
      decodeSleb128 ([0x7E] ++ [0xFF]) = some (-2, 1) :=
  ⟨(decode_leb128 [0xAC, 0x82, 0x00] [0xFF] ⟨by decide, by decide, Nat.two_pow_pos 7⟩ (by decide)).1
      300
      (by decide),
    (decode_leb128 [0x7E] [0xFF] (by decide : (0x7E : UInt8).toNat < 128) (by decide)).2 (-2)
      (by decide)⟩

end AthenX.Dwarf
