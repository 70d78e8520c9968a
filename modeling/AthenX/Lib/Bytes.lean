import Mathlib

/-!
# Loops over bytes

Memory is a function from 32-bit addresses to bytes. The loops of C that copy or clear an array
write one byte after the other, from the first on; what a byte is set to may depend on the memory
that the loop has left so far.
-/

namespace Bytes

open Function

/-- The bytes of memory. -/
abbrev Memory := UInt32 → UInt8

/-- Set the bytes `p`, `p + 1`, …, `p + (n - 1)`, in this order. -/
def write (p : UInt32) (v : ℕ → Memory → UInt8) : ℕ → Memory → Memory
  | 0, m => m
  | n + 1, m =>
      let m' := write p v n m
      Function.update m' (p + UInt32.ofNat n) (v n m')

/-- Copy `n` bytes. -/
def copy (dst src : UInt32) (n : ℕ) (m : Memory) : Memory :=
  write dst (fun k m => m (src + UInt32.ofNat k)) n m

/-- Set `n` bytes to zero. -/
def clear (p : UInt32) (n : ℕ) (m : Memory) : Memory := write p (fun _ _ => 0) n m

variable {p q dst src a : UInt32} {v : ℕ → Memory → UInt8} {n k : ℕ} {m : Memory}

theorem toNat_add_ofNat (h : p.toNat + k < 2 ^ 32) : (p + UInt32.ofNat k).toNat = p.toNat + k := by
  rw [UInt32.toNat_add, UInt32.toNat_ofNat_of_lt' (Nat.lt_of_le_of_lt (Nat.le_add_left k _) h)]
  exact Nat.mod_eq_of_lt h

/-- The bytes outside of the array stay. -/
theorem write_of_outside (ha : ∀ k < n, a ≠ p + UInt32.ofNat k) : write p v n m a = m a := by
  induction n with
  | zero => rfl
  | succ n ih =>
    rw [write, update_of_ne (ha n (Nat.lt_succ_self n))]
    exact ih fun k hk => ha k (Nat.lt_succ_of_lt hk)

/-- The same, for an array that does not wrap around. -/
theorem write_of_lt (hp : p.toNat + n ≤ 2 ^ 32) (ha : a.toNat < p.toNat ∨ p.toNat + n ≤ a.toNat) :
    write p v n m a = m a := by
  refine write_of_outside fun k hk heq => ?_
  rw [heq, toNat_add_ofNat (by omega)] at ha
  omega

/-- A byte of the array is what it was set to. -/
theorem write_apply (hp : p.toNat + n ≤ 2 ^ 32) (hk : k < n) :
    write p v n m (p + UInt32.ofNat k) = v k (write p v k m) := by
  induction n with
  | zero => omega
  | succ n ih =>
    rw [write]
    by_cases hkn : k = n
    · subst hkn
      rw [update_self]
    · have hne : p + UInt32.ofNat k ≠ p + UInt32.ofNat n := by
        intro heq
        have hnat := congrArg UInt32.toNat heq
        rw [toNat_add_ofNat (by omega), toNat_add_ofNat (by omega)] at hnat
        omega
      rw [update_of_ne hne]
      exact ih (by omega) (by omega)

theorem clear_apply (hp : p.toNat + n ≤ 2 ^ 32) (hk : k < n) :
    clear p n m (p + UInt32.ofNat k) = 0 := write_apply hp hk

/-- **The copy**, if source and destination are apart. -/
theorem copy_apply (hdst : dst.toNat + n ≤ 2 ^ 32) (hsrc : src.toNat + n ≤ 2 ^ 32)
    (hap : dst.toNat + n ≤ src.toNat ∨ src.toNat + n ≤ dst.toNat) (hk : k < n) :
    copy dst src n m (dst + UInt32.ofNat k) = m (src + UInt32.ofNat k) := by
  rw [copy, write_apply hdst hk]
  refine write_of_lt (by omega) ?_
  rw [toNat_add_ofNat (by omega)]
  omega

/-! ### Words -/

/-- The word at `p`, least byte first. -/
def load32 (m : Memory) (p : UInt32) : UInt32 :=
  UInt32.ofNat ((m p).toNat + 256 * (m (p + 1)).toNat + 65536 * (m (p + 2)).toNat +
    16777216 * (m (p + 3)).toNat)

/-- Byte `k` of a word. -/
def byte (w : UInt32) (k : ℕ) : UInt8 := UInt8.ofNat (w.toNat / 256 ^ k)

/-- Set the word at `p`. -/
def store32 (p w : UInt32) (m : Memory) : Memory := write p (fun k _ => byte w k) 4 m

/-- Only bytes from `lo` up to `hi` have been written. -/
def SameOutside (lo hi : ℕ) (m m' : Memory) : Prop :=
  ∀ a : UInt32, a.toNat < lo ∨ hi ≤ a.toNat → m' a = m a

variable {w : UInt32} {b : UInt8} {m' m'' : Memory} {lo hi : ℕ}

theorem load32_store32 (hp : p.toNat + 4 ≤ 2 ^ 32) : load32 (store32 p w m) p = w := by
  have hbyte : ∀ k < 4, store32 p w m (p + UInt32.ofNat k) = byte w k := fun k hk =>
    write_apply hp hk
  have h0 : store32 p w m p = byte w 0 := by simpa using hbyte 0 (by omega)
  have h1 : store32 p w m (p + 1) = byte w 1 := hbyte 1 (by omega)
  have h2 : store32 p w m (p + 2) = byte w 2 := hbyte 2 (by omega)
  have h3 : store32 p w m (p + 3) = byte w 3 := hbyte 3 (by omega)
  have hw := w.toNat_lt
  have hsum : w.toNat / 256 ^ 0 % 256 + 256 * (w.toNat / 256 ^ 1 % 256) +
      65536 * (w.toNat / 256 ^ 2 % 256) + 16777216 * (w.toNat / 256 ^ 3 % 256) = w.toNat := by
    omega
  rw [load32, h0, h1, h2, h3]
  simp only [byte, UInt8.toNat_ofNat']
  rw [hsum, UInt32.ofNat_toNat]

namespace SameOutside

theorem refl (lo hi : ℕ) (m : Memory) : SameOutside lo hi m m := fun _ _ => rfl

theorem trans (h1 : SameOutside lo hi m m') (h2 : SameOutside lo hi m' m'') :
    SameOutside lo hi m m'' := fun a ha => (h2 a ha).trans (h1 a ha)

theorem mono {lo' hi' : ℕ} (h : SameOutside lo hi m m') (hlo : lo' ≤ lo) (hhi : hi ≤ hi') :
    SameOutside lo' hi' m m' := fun a ha => h a (by omega)

theorem store32 (w : UInt32) (m : Memory) (hlo : lo ≤ p.toNat) (hhi : p.toNat + 4 ≤ hi)
    (hp : p.toNat + 4 ≤ 2 ^ 32) : SameOutside lo hi m (store32 p w m) := fun a ha =>
  write_of_lt hp (by omega)

theorem update (b : UInt8) (m : Memory) (hlo : lo ≤ p.toNat) (hhi : p.toNat + 1 ≤ hi) :
    SameOutside lo hi m (update m p b) := by
  intro a ha
  refine update_of_ne ?_ b m
  rintro rfl
  omega

/-- A byte outside of what has been written. -/
theorem byte (h : SameOutside lo hi m m') (hp : p.toNat + k < 2 ^ 32)
    (hout : p.toNat + k < lo ∨ hi ≤ p.toNat + k) :
    m' (p + UInt32.ofNat k) = m (p + UInt32.ofNat k) := by
  refine h _ ?_
  rwa [toNat_add_ofNat hp]

/-- A word outside of what has been written. -/
theorem load32 (h : SameOutside lo hi m m') (hp : p.toNat + 4 ≤ 2 ^ 32)
    (hout : p.toNat + 4 ≤ lo ∨ hi ≤ p.toNat) : load32 m' p = load32 m p := by
  have h1 : m' (p + 1) = m (p + 1) := h.byte (k := 1) (by omega) (by omega)
  have h2 : m' (p + 2) = m (p + 2) := h.byte (k := 2) (by omega) (by omega)
  have h3 : m' (p + 3) = m (p + 3) := h.byte (k := 3) (by omega) (by omega)
  rw [Bytes.load32, Bytes.load32, h p (by omega), h1, h2, h3]

end SameOutside

end Bytes
