import Mathlib

/-!
# The descriptor table of a transfer

`ahci_read_sectors` and `ahci_write_sectors` of `drivers/disk/ahci/ahci_main.c` describe the buffer
in regions of 4 KiB, the last of which is the remainder. If there is none, the size minus one is -1,
and the field of 22 bits says 4 MiB.
-/

namespace AthenX.Storage

open List Function

/-- `HBA_PRDT_ENTRY`, without the reserved fields. -/
structure PrdtEntry where
  dba : UInt32
  dbau : UInt32
  dbc : BitVec 22
  i : Bool
  deriving DecidableEq, Repr

/-- `prdtl`. -/
def prdtl (count : UInt32) : UInt16 := ((count + 7) / 8).toUInt16

/-- The loop over the entries in front of the last one. -/
def setupPrdt (buf : UInt32) : ℕ → (ℕ → PrdtEntry) → ℕ → PrdtEntry
  | 0, entries => entries
  | i + 1, entries =>
      let entries := setupPrdt buf i entries
      Function.update entries i
        { entries i with dba := buf + UInt32.ofNat i * 4096, dbc := 4096 - 1, i := true }

/-- The table, which `memset` has cleared. -/
def prdt (buf count : UInt32) : List PrdtEntry :=
  let n := (prdtl count).toNat
  let entries := setupPrdt buf (n - 1) fun _ => ⟨0, 0, 0, false⟩
  let entries := Function.update entries (n - 1)
    { entries (n - 1) with
      dba := buf + UInt32.ofNat (n - 1) * 4096
      dbc := BitVec.ofNat 22 (count * 512 % 4096 - 1).toNat
      i := true }
  (List.range n).map entries

/-- The address of a region. -/
def PrdtEntry.address (e : PrdtEntry) : ℕ := e.dbau.toNat * 2 ^ 32 + e.dba.toNat

/-- The size of a region, which the field has less one. -/
def PrdtEntry.size (e : PrdtEntry) : ℕ := e.dbc.toNat + 1

/-- The regions follow one another from `a` to `b`. -/
def Describes : List PrdtEntry → ℕ → ℕ → Prop
  | [], a, b => a = b
  | e :: es, a, b => e.address = a ∧ Describes es (a + e.size) b

section

variable {es fs : List PrdtEntry} {e : PrdtEntry} {a b c n : ℕ} {buf count : UInt32}

theorem Describes.total (h : Describes es a b) : a + (es.map PrdtEntry.size).sum = b := by
  induction es generalizing a with
  | nil => exact h
  | cons e es ih =>
    rw [map_cons, sum_cons, ← Nat.add_assoc]
    exact ih h.2

theorem Describes.append_iff (h : Describes es a b) : Describes (es ++ fs) a c ↔ Describes fs b c
  := by
  induction es generalizing a with
  | nil => rw [show a = b from h, nil_append]
  | cons e es ih =>
    rw [cons_append, Describes, and_iff_right h.1]
    exact ih h.2

theorem setupPrdt_eq (entries : ℕ → PrdtEntry) (hentries : ∀ i, entries i = ⟨0, 0, 0, false⟩)
    (n i : ℕ) : setupPrdt buf n entries i =
      if i < n then ⟨buf + UInt32.ofNat i * 4096, 0, 4095, true⟩ else ⟨0, 0, 0, false⟩ := by
  induction n with
  | zero => exact hentries i
  | succ n ih =>
    rw [setupPrdt]
    by_cases hi : i = n
    · subst hi
      rw [if_neg (Nat.lt_irrefl i)] at ih
      rw [update_self, ih, if_pos (Nat.lt_succ_self i)]
      rfl
    · rw [update_of_ne hi, ih]
      exact if_congr (by omega) rfl rfl

theorem prdt_eq (hn : (prdtl count).toNat = n + 1) : prdt buf count =
    (List.range n).map (fun i => ⟨buf + UInt32.ofNat i * 4096, 0, 4095, true⟩) ++
      [⟨buf + UInt32.ofNat n * 4096, 0, BitVec.ofNat 22 (count * 512 % 4096 - 1).toNat, true⟩] := by
  have hzero : ∀ i : ℕ, (fun _ : ℕ => (⟨0, 0, 0, false⟩ : PrdtEntry)) i = ⟨0, 0, 0, false⟩ :=
    fun _ => rfl
  simp only [prdt, hn, Nat.add_sub_cancel, range_succ, map_append, map_singleton, update_self]
  congr 1
  · refine map_congr_left fun i hi => ?_
    have hlt := mem_range.mp hi
    rw [update_of_ne (Nat.ne_of_lt hlt), setupPrdt_eq _ hzero, if_pos hlt]
  · rw [setupPrdt_eq _ hzero, if_neg (Nat.lt_irrefl n)]

theorem toNat_region (h : buf.toNat + n * 4096 < 2 ^ 32) :
    (buf + UInt32.ofNat n * 4096).toNat = buf.toNat + n * 4096 := by
  rw [UInt32.toNat_add, UInt32.toNat_mul, UInt32.toNat_ofNat']
  simp only [UInt32.reduceToNat]
  omega

theorem describes_full (h : buf.toNat + n * 4096 < 2 ^ 32) :
    Describes ((List.range n).map fun i => ⟨buf + UInt32.ofNat i * 4096, 0, 4095, true⟩)
      buf.toNat (buf.toNat + n * 4096) := by
  induction n with
  | zero => rfl
  | succ n ih =>
    rw [Nat.add_one_mul, ← Nat.add_assoc] at h ⊢
    have hlt := Nat.lt_of_add_right_lt h
    rw [range_succ, map_append, (ih hlt).append_iff]
    refine ⟨?_, rfl⟩
    rw [PrdtEntry.address, toNat_region hlt, UInt32.toNat_zero, Nat.zero_mul, Nat.zero_add]

theorem size_last :
    (BitVec.ofNat 22 (count * 512 % 4096 - 1).toNat).toNat + 1 =
      if count.toNat % 8 = 0 then 2 ^ 22 else count.toNat % 8 * 512 := by
  have hmod : (count * 512 % 4096).toNat = count.toNat % 8 * 512 := by
    rw [UInt32.toNat_mod, UInt32.toNat_mul]
    simp only [UInt32.reduceToNat]
    omega
  rw [BitVec.toNat_ofNat, UInt32.toNat_sub]
  simp only [UInt32.reduceToNat]
  split <;> omega

end

/-- **When the table describes the buffer**: unless the number of sectors is a multiple of 8. -/
theorem describes_prdt_iff (buf count : UInt32) (hpos : 1 ≤ count.toNat)
    (hcount : count.toNat ≤ 65535) (hbuf : buf.toNat + count.toNat * 512 ≤ 2 ^ 32) :
    (Describes (prdt buf count) buf.toNat (buf.toNat + count.toNat * 512) ∧
      ((prdt buf count).map PrdtEntry.size).sum = count.toNat * 512) ↔ count.toNat % 8 ≠ 0 := by
  obtain ⟨n, hn⟩ : ∃ n, (count.toNat + 7) / 8 = n + 1 := ⟨(count.toNat - 1) / 8, by omega⟩
  have hlen : (prdtl count).toNat = n + 1 := by
    rw [prdtl, UInt32.toNat_toUInt16, UInt32.toNat_div, UInt32.toNat_add]
    simp only [UInt32.reduceToNat]
    omega
  have hregion : buf.toNat + n * 4096 < 2 ^ 32 := by omega
  have hiff : Describes (prdt buf count) buf.toNat (buf.toNat + count.toNat * 512) ↔
      count.toNat % 8 ≠ 0 := by
    rw [prdt_eq hlen, (describes_full hregion).append_iff, Describes, Describes,
      PrdtEntry.address, toNat_region hregion, PrdtEntry.size, size_last]
    simp only [UInt32.toNat_zero]
    split <;> omega
  rw [← hiff]
  refine and_iff_left_of_imp fun h => ?_
  have htotal := h.total
  omega

theorem describes_prdt_nine :
    Describes (prdt 0x1000 9) 0x1000 (0x1000 + 9 * 512) ∧
      ((prdt 0x1000 9).map PrdtEntry.size).sum = 9 * 512 :=
  (describes_prdt_iff 0x1000 9 (by decide) (by decide) (by decide)).mpr (by decide)

/-- For 8 sectors the only region has 4 MiB. -/
theorem not_describes_prdt_eight :
    ¬(Describes (prdt 0x1000 8) 0x1000 (0x1000 + 8 * 512) ∧
      ((prdt 0x1000 8).map PrdtEntry.size).sum = 8 * 512) := by
  rintro ⟨-, hsum⟩
  revert hsum
  decide

end AthenX.Storage
