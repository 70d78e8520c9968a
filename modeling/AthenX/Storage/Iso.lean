import AthenX.Storage.Ide

/-!
# Writing an image to the disk

`write_iso_to_disk` of `drivers/hal/storage/storage.c` writes an image sector by sector with
`secondary_storage_write`, the last sector filled up with zeros, and stops at the first write that
fails.
-/

namespace AthenX.Storage

open Function

section

variable {Port σ : Type} (d : Drivers Port σ) (iso : ℕ → UInt8) (isoSize : UInt32)

/-! ### The source -/

/-- The buffer for a sector. -/
def isoBuffer (sector : UInt32) : ℕ → UInt8 :=
  let offset := sector * 512
  let bytesToWrite := if 512 < isoSize - offset then 512 else isoSize - offset
  fun i => if i < bytesToWrite.toNat then iso (offset.toNat + i) else 0

/-- The loop, with a number of sectors to go. -/
def writeSectors : ℕ → UInt32 → Hal Port σ → Option (Hal Port σ × ℤ)
  | 0, _, st => some (st, 0)
  | k + 1, sector, st => do
      let (st, ret) ← secondaryStorageWrite d st sector (isoBuffer iso isoSize sector) 1
      if ret ≠ 1 then some (st, -1) else writeSectors k (sector + 1) st

/-- `write_iso_to_disk`. -/
def writeIsoToDisk (st : Hal Port σ) : Option (Hal Port σ × ℤ) :=
  writeSectors d iso isoSize ((isoSize + 512 - 1) / 512).toNat 0 st

/-! ### The property -/

/-- The selected drive. -/
def Hal.current (st : Hal Port σ) : Port ⊕ UInt8 :=
  match st.primaryDev.storageType with
  | .ahci => .inl (st.ahciPort st.currentAhciDrive)
  | .ide => .inr (UInt8.ofInt st.driveNum)

/-- The image, followed by zeros. -/
def padded (i : ℕ) : UInt8 := if i < isoSize.toNat then iso i else 0

variable [DecidableEq Port] (content : σ → Port ⊕ UInt8 → ℕ → List UInt8)

/-- The contents of the drives after a write of one sector. -/
def stored (c : Port ⊕ UInt8 → ℕ → List UInt8) (x : Port ⊕ UInt8) (s : ℕ) (data : List UInt8) :
    Port ⊕ UInt8 → ℕ → List UInt8 := Function.update c x (Function.update (c x) s data)

/-- A write that succeeds stores its sector, and one that fails changes nothing, nor does a read. -/
structure Disks : Prop where
  ahci : ∀ p s b st, content (d.ahci.write p s 1 (bytes b sectorSize) st).1 =
    if (d.ahci.write p s 1 (bytes b sectorSize) st).2 = 1 then
      stored (content st) (.inl p) s (bytes b sectorSize) else content st
  ide : ∀ p s b st, content (d.ide.write p s 1 (bytes b sectorSize) st).1 =
    if (d.ide.write p s 1 (bytes b sectorSize) st).2 = 0 then
      stored (content st) (.inr p) s (bytes b sectorSize) else content st
  verify : ∀ s st, content (d.ide.read 0 s 1 st).1 = content st ∧
    (d.ide.read 0 s 1 st).2.2.length ≤ tempbufferSize

/-- The first `k` sectors of the selected drive were written. -/
def Image (st : Hal Port σ) (k : ℕ) (st' : Hal Port σ) : Prop :=
  st' = { st with disks := st'.disks } ∧ ∀ x s, content st'.disks x s =
    if x = st.current ∧ s < k then sectorOf (padded iso isoSize) s else content st.disks x s

/-- The write of sector `k` has failed, with the image in front of it. -/
def FailedAt (st : Hal Port σ) (k : ℕ) (st' : Hal Port σ) : Prop :=
  ∃ st₁ ret, Image iso isoSize content st k st₁ ∧ ret ≠ 1 ∧
    secondaryStorageWrite d st₁ (UInt32.ofNat k) (isoBuffer iso isoSize (UInt32.ofNat k)) 1 =
      some (st', ret)

end

section

variable {Port σ : Type} [DecidableEq Port] {d : Drivers Port σ} {iso : ℕ → UInt8}
  {isoSize : UInt32} {content : σ → Port ⊕ UInt8 → ℕ → List UInt8} {st st₁ : Hal Port σ} {k n : ℕ}

theorem Disks.write (hd : Disks d content) (st : Hal Port σ) (sector : UInt32) (b : ℕ → UInt8) :
    ∃ disks ret, secondaryStorageWrite d st sector b 1 = some ({ st with disks := disks }, ret) ∧
      content disks = if ret = 1 then
        stored (content st.disks) st.current sector.toNat (bytes b sectorSize)
        else content st.disks := by
  unfold secondaryStorageWrite Hal.current
  cases st.primaryDev.storageType with
  | ahci => exact ⟨_, _, rfl, hd.ahci _ _ _ _⟩
  | ide =>
    have hwrite := hd.ide (UInt8.ofInt st.driveNum) sector.toNat b st.disks
    obtain ⟨hkept, hshort⟩ := hd.verify sector.toNat
      (d.ide.write (UInt8.ofInt st.driveNum) sector.toNat 1 (bytes b sectorSize) st.disks).1
    split at hwrite
    · next hzero =>
      exact ⟨_, 1, (if_pos hzero).trans (if_neg (Nat.not_lt.mpr hshort)), hkept.trans hwrite⟩
    · next hne => exact ⟨_, 0, if_neg hne, hwrite⟩

theorem bytes_isoBuffer (hk : k * 512 < isoSize.toNat) :
    bytes (isoBuffer iso isoSize (UInt32.ofNat k)) sectorSize =
      sectorOf (padded iso isoSize) k := by
  have hlt := isoSize.toNat_lt
  have hoffset : (UInt32.ofNat k * 512).toNat = k * 512 := by
    rw [UInt32.toNat_mul, UInt32.toNat_ofNat']
    simp only [UInt32.reduceToNat]
    omega
  have hrest : (isoSize - UInt32.ofNat k * 512).toNat = isoSize.toNat - k * 512 := by
    rw [UInt32.toNat_sub_of_le _ _ (UInt32.le_iff_toNat_le.mpr (by omega)), hoffset]
  refine List.map_congr_left fun i hi => ?_
  have hi : i < 512 := List.mem_range.mp hi
  simp only [isoBuffer, hoffset, sectorSize]
  refine if_congr ?_ rfl rfl
  split
  · next hbig =>
    rw [UInt32.lt_iff_toNat_lt] at hbig
    simp only [UInt32.reduceToNat] at hbig ⊢
    omega
  · rw [hrest]
    omega

theorem Image.succ (h : Image iso isoSize content st k st₁) {disks : σ}
    (hdisks : content disks =
      stored (content st₁.disks) st₁.current k (sectorOf (padded iso isoSize) k)) :
    Image iso isoSize content st (k + 1) { st₁ with disks := disks } := by
  obtain ⟨heq, hcontent⟩ := h
  have hcurrent : st₁.current = st.current := by rw [heq]; rfl
  refine ⟨by rw [heq], fun x s => ?_⟩
  rw [hdisks, hcurrent, stored]
  by_cases hx : x = st.current
  · subst hx
    rw [update_self]
    by_cases hs : s = k
    · subst hs
      rw [update_self, if_pos ⟨rfl, Nat.lt_succ_self s⟩]
    · rw [update_of_ne hs, hcontent]
      exact if_congr (by simp only [true_and]; omega) rfl rfl
  · rw [update_of_ne hx, hcontent, if_neg fun h => hx h.1, if_neg fun h => hx h.1]

/-- **The loop**, with `k` sectors done and `n` to go. -/
theorem writeSectors_spec (hd : Disks d content) (hn : k + n ≤ (isoSize.toNat + 511) / 512)
    (h : Image iso isoSize content st k st₁) :
    ∃ st' ret, writeSectors d iso isoSize n (UInt32.ofNat k) st₁ = some (st', ret) ∧
      (ret = 0 ∧ Image iso isoSize content st (k + n) st' ∨
        ret = -1 ∧ ∃ j < k + n, FailedAt d iso isoSize content st j st' ∧
          Image iso isoSize content st j st') := by
  induction n generalizing k st₁ with
  | zero => exact ⟨st₁, 0, rfl, .inl ⟨rfl, h⟩⟩
  | succ n ih =>
    have hlt := isoSize.toNat_lt
    have hk : k * 512 < isoSize.toNat := by omega
    obtain ⟨disks, ret, hwrite, hdisks⟩ :=
      hd.write st₁ (UInt32.ofNat k) (isoBuffer iso isoSize (UInt32.ofNat k))
    rw [bytes_isoBuffer hk, UInt32.toNat_ofNat_of_lt' (show k < 2 ^ 32 by omega)] at hdisks
    rw [writeSectors, hwrite, Option.bind_eq_bind, Option.bind_some]
    by_cases hret : ret = 1
    · have hnext := ih (by omega) (h.succ (by rw [hdisks, if_pos hret]))
      rw [Nat.add_right_comm, UInt32.ofNat_add] at hnext
      simp only [hret]
      exact hnext
    · rw [if_neg hret] at hdisks
      simp only [hret, ne_eq]
      refine ⟨_, -1, rfl, .inr ⟨rfl, k, ?_⟩⟩
      refine ⟨by omega, ⟨st₁, ret, h, hret, hwrite⟩, by rw [h.1], fun x s => ?_⟩
      rw [hdisks]
      exact h.2 x s

end

/-- **The disks after the call.** If it returns 0, the first sectors hold the image, then zeros.
Otherwise a write has failed, and those in front of it hold the image. Nothing else has changed. -/
theorem writeIsoToDisk_spec {Port σ : Type} [DecidableEq Port] {d : Drivers Port σ}
    {content : σ → Port ⊕ UInt8 → ℕ → List UInt8} (hd : Disks d content) (iso : ℕ → UInt8)
    (isoSize : UInt32) (hsize : isoSize.toNat ≤ 2 ^ 32 - 512) (st : Hal Port σ) :
    ∃ st' ret, writeIsoToDisk d iso isoSize st = some (st', ret) ∧
      (ret = 0 ∧ Image iso isoSize content st ((isoSize.toNat + 511) / 512) st' ∨
        ret = -1 ∧ ∃ k < (isoSize.toNat + 511) / 512, FailedAt d iso isoSize content st k st' ∧
          Image iso isoSize content st k st') := by
  have hcount : ((isoSize + 512 - 1) / 512).toNat = (isoSize.toNat + 511) / 512 := by
    rw [UInt32.toNat_div, UInt32.toNat_sub, UInt32.toNat_add]
    simp only [UInt32.reduceToNat]
    omega
  have hstart : Image iso isoSize content st 0 st := ⟨rfl, fun x s => by simp⟩
  have hloop := writeSectors_spec (n := (isoSize.toNat + 511) / 512) hd (by omega) hstart
  rw [Nat.zero_add] at hloop
  rw [writeIsoToDisk, hcount]
  exact hloop

/-- Two drives in memory. -/
def mirrorDrivers : Drivers Unit (Unit ⊕ UInt8 → ℕ → List UInt8) where
  ahci := ⟨fun p s _ data c => (stored c (.inl p) s data, 1), fun _ _ _ c => (c, 1, [])⟩
  ide := ⟨fun p s _ data c => (stored c (.inr p) s data, 0), fun _ _ _ c => (c, 0, [])⟩
  attach := fun st => (st.disks, true)

def mirrorHal : Hal Unit (Unit ⊕ UInt8 → ℕ → List UInt8) :=
  ⟨fun _ => ⟨0, .ahci, 0, 0, 1⟩, ⟨0, .ahci, 0, 0, 1⟩, fun _ => (), 0, [], 0, fun _ _ => []⟩

/-- An image of two sectors. -/
theorem writeIsoToDisk_spec_mirrorHal : ∃ st' ret,
    writeIsoToDisk mirrorDrivers (fun _ => 7) 600 mirrorHal = some (st', ret) ∧
      (ret = 0 ∧ Image (fun _ => 7) 600 id mirrorHal 2 st' ∨
        ret = -1 ∧ ∃ k < 2, FailedAt mirrorDrivers (fun _ => 7) 600 id mirrorHal k st' ∧
          Image (fun _ => 7) 600 id mirrorHal k st') :=
  writeIsoToDisk_spec ⟨fun _ _ _ _ => rfl, fun _ _ _ _ => rfl, fun _ _ => ⟨rfl, Nat.zero_le _⟩⟩
    (fun _ => 7) 600 (by decide) mirrorHal

end AthenX.Storage
