import Mathlib

/-!
# The storage layer

`drivers/hal/storage/storage.c` keeps a table of AHCI and IDE drives. `set_primary_dev` selects one,
which the file system uses through `secondary_storage_read` and `secondary_storage_write`. For an
IDE drive the call in `secondary_storage_read` is commented out: it reads nothing and has no return
statement. The drivers, and what mounting does to the disks, are parameters.
-/

namespace AthenX.Storage

/-! ### Drivers -/

/-- A driver for the drives `δ`, with disks `σ`: drive, first sector and number come first. A read
also returns the buffer. -/
structure Driver (δ σ : Type) where
  write : δ → ℕ → ℕ → List UInt8 → σ → σ × ℤ
  read : δ → ℕ → ℕ → σ → σ × ℤ × List UInt8

/-- `SECTOR_SIZE`. -/
def sectorSize : ℕ := 512

/-- After a write with the code `ok`, a read of the same sectors returns what was written. -/
def Driver.Stores {δ σ : Type} (d : Driver δ σ) (ok : ℤ) : Prop :=
  ∀ drive lba count data st st', data.length = count * sectorSize →
    d.write drive lba count data st = (st', ok) →
    ∃ st'', d.read drive lba count st' = (st'', ok, data)

/-! ### The functions -/

/-- `storage_type`. -/
inductive StorageType where
  | ahci
  | ide
  deriving DecidableEq, Repr

/-- `pci_storage_device`. -/
structure Device where
  set : ℤ
  storageType : StorageType
  storageCount : ℤ
  storageSpecificNumber : ℤ
  fileSystem : ℤ
  deriving DecidableEq, Repr

/-- The variables of the storage layer and of the selection in the two drivers. -/
structure Hal (Port σ : Type) where
  storageDevs : ℤ → Device
  primaryDev : Device
  /-- `port` of `ahci_devices`. -/
  ahciPort : ℤ → Port
  currentAhciDrive : ℤ
  validDriveNums : List ℤ
  /-- `_drive_num`. -/
  driveNum : ℤ
  disks : σ

/-- What is behind the storage layer. -/
structure Drivers (Port σ : Type) where
  /-- `ahci_read_sectors` and `ahci_write_sectors`, which return 1 on success. -/
  ahci : Driver Port σ
  /-- `ide_read_sectors` and `ide_write_sectors`, which return 0 on success. -/
  ide : Driver UInt8 σ
  /-- `fl_init` and `fl_attach_media`, which read the selected drive. -/
  attach : Hal Port σ → σ × Bool

/-- The first `k` bytes of a buffer. -/
def bytes (b : ℕ → UInt8) (k : ℕ) : List UInt8 := (List.range k).map b

/-- A buffer after `data` has been put at its start. -/
def fill (b : ℕ → UInt8) (data : List UInt8) : ℕ → UInt8 := fun i => data.getD i (b i)

section

variable {Port σ : Type} (d : Drivers Port σ)

/-- `select_ahci_drive`. -/
def selectAhciDrive (st : Hal Port σ) (index : ℤ) : Hal Port σ :=
  { st with currentAhciDrive := index }

/-- `select_ide_drive`. The error code is not looked at. -/
def selectIdeDrive (st : Hal Port σ) (driveNum : ℤ) : Hal Port σ :=
  if driveNum ∈ st.validDriveNums then { st with driveNum := driveNum } else st

/-- The first part of `set_primary_dev`. -/
def selectDev (st : Hal Port σ) (device : Device) : Hal Port σ :=
  let st := { st with primaryDev := device }
  match device.storageType with
  | .ahci => selectAhciDrive st device.storageSpecificNumber
  | .ide => selectIdeDrive st device.storageSpecificNumber

/-- `set_primary_dev`, without a value if it succeeds. -/
def setPrimaryDev (st : Hal Port σ) (dev : ℤ) : Hal Port σ × Option ℤ :=
  let device := st.storageDevs dev
  if device.set ≠ 0 then (st, some (-1))
  else
    let st := selectDev st device
    let (disks, attached) := d.attach st
    ({ st with disks := disks }, if attached then none else some (-1))

/-- `ahci_write_sector_hal`. -/
def ahciWriteSectorHal (st : Hal Port σ) (sector : UInt32) (buffer : ℕ → UInt8)
    (sectorCount : UInt32) : Hal Port σ × ℤ :=
  let (disks, ret) := d.ahci.write (st.ahciPort st.currentAhciDrive) sector.toNat sectorCount.toNat
    (bytes buffer (sectorCount.toNat * sectorSize)) st.disks
  ({ st with disks := disks }, ret)

/-- `ahci_read_sector_hal`. -/
def ahciReadSectorHal (st : Hal Port σ) (sector : UInt32) (buffer : ℕ → UInt8)
    (sectorCount : UInt32) : Hal Port σ × ℤ × (ℕ → UInt8) :=
  let (disks, ret, data) := d.ahci.read (st.ahciPort st.currentAhciDrive) sector.toNat
    sectorCount.toNat st.disks
  ({ st with disks := disks }, ret, fill buffer data)

/-- The size of `tempbuffer`, an array of 1536 pointers. -/
def tempbufferSize : ℕ := 512 * 3 * 4

/-- `ide_write_sectors_fat`, with `uint8` arguments. It reads back from drive 0, maybe behind
`tempbuffer`. -/
def ideWriteSectorsFat (st : Hal Port σ) (sector : UInt32) (buffer : ℕ → UInt8)
    (sectorCount : UInt32) : Option (Hal Port σ × ℤ) :=
  let count := sectorCount.toNat % 256
  let (disks, ret) := d.ide.write (UInt8.ofInt st.driveNum) sector.toNat count
    (bytes buffer (count * sectorSize)) st.disks
  if ret = 0 then
    let (disks, _, data) := d.ide.read 0 sector.toNat count disks
    if tempbufferSize < data.length then none else some ({ st with disks := disks }, 1)
  else some ({ st with disks := disks }, 0)

/-- `secondary_storage_read`. Without a return statement the value is `eax`. -/
def secondaryStorageRead (eax : ℤ) (st : Hal Port σ) (sector : UInt32) (buffer : ℕ → UInt8)
    (sectorCount : UInt32) : Hal Port σ × ℤ × (ℕ → UInt8) :=
  match st.primaryDev.storageType with
  | .ahci => ahciReadSectorHal d st sector buffer sectorCount
  | .ide => (st, eax, buffer)

/-- `secondary_storage_write`. -/
def secondaryStorageWrite (st : Hal Port σ) (sector : UInt32) (buffer : ℕ → UInt8)
    (sectorCount : UInt32) : Option (Hal Port σ × ℤ) :=
  match st.primaryDev.storageType with
  | .ahci => some (ahciWriteSectorHal d st sector buffer sectorCount)
  | .ide => ideWriteSectorsFat d st sector buffer sectorCount

/-! ### Reading back -/

/-- If a write returns 1, a read that follows returns 1 and what was written. -/
def RoundTrip (st : Hal Port σ) (sector : UInt32) (b : ℕ → UInt8) (n : UInt32) : Prop :=
  ∀ st', secondaryStorageWrite d st sector b n = some (st', 1) → ∀ b₂ eax,
    ∃ st'' b₂', secondaryStorageRead d eax st' sector b₂ n = (st'', 1, b₂') ∧
      ∀ i < n.toNat * sectorSize, b₂' i = b i

/-- The driver refuses a write to the IDE drive, or the buffer for reading back is too small. -/
def Refused (st : Hal Port σ) (sector : UInt32) (b : ℕ → UInt8) (n : UInt32) : Prop :=
  let written := d.ide.write (UInt8.ofInt st.driveNum) sector.toNat (n.toNat % 256)
    (bytes b (n.toNat % 256 * sectorSize)) st.disks
  written.2 ≠ 0 ∨ tempbufferSize < (d.ide.read 0 sector.toNat (n.toNat % 256) written.1).2.2.length

/-! ### A failed selection -/

/-- The selection is as it was, and reads and writes go where they went. -/
structure Unswitched (st st' : Hal Port σ) : Prop where
  primaryDev : st'.primaryDev = st.primaryDev
  ahci : st'.currentAhciDrive = st.currentAhciDrive
  ide : st'.driveNum = st.driveNum
  read : ∀ eax sector b n, secondaryStorageRead d eax st' sector b n =
    secondaryStorageRead d eax { st with disks := st'.disks } sector b n
  write : ∀ sector b n, secondaryStorageWrite d st' sector b n =
    secondaryStorageWrite d { st with disks := st'.disks } sector b n

/-- A call of `set_primary_dev` that returns -1 does not switch the device. -/
def Atomic (st : Hal Port σ) (dev : ℤ) : Prop :=
  (setPrimaryDev d st dev).2 = some (-1) → Unswitched d st (setPrimaryDev d st dev).1

/-- The device is the selected one already. -/
def Selected (st : Hal Port σ) (device : Device) : Prop :=
  device = st.primaryDev ∧
    match device.storageType with
    | .ahci => device.storageSpecificNumber = st.currentAhciDrive
    | .ide => device.storageSpecificNumber ∈ st.validDriveNums →
        device.storageSpecificNumber = st.driveNum

end

section

variable {Port σ : Type} {d : Drivers Port σ} {st : Hal Port σ} {sector n : UInt32}
  {b : ℕ → UInt8}

@[simp] theorem length_bytes (b : ℕ → UInt8) (k : ℕ) : (bytes b k).length = k := by
  simp [bytes]

theorem fill_bytes (b b2 : ℕ → UInt8) {i k : ℕ} (hi : i < k) : fill b2 (bytes b k) i = b i := by
  simp [fill, bytes, hi]

theorem roundTrip_of_ahci (hd : d.ahci.Stores 1) (ht : st.primaryDev.storageType = .ahci) :
    RoundTrip d st sector b n := by
  intro st' hwrite b2 eax
  simp only [secondaryStorageWrite, ht, ahciWriteSectorHal, Option.some.injEq,
    Prod.mk.injEq] at hwrite
  obtain ⟨rfl, hret⟩ := hwrite
  obtain ⟨disks, hread⟩ := hd _ _ _ _ _ _ (length_bytes b _) (Prod.ext rfl hret)
  refine ⟨{ st with disks := disks }, fill b2 (bytes b (n.toNat * sectorSize)), ?_, ?_⟩
  · simp [secondaryStorageRead, ht, ahciReadSectorHal, hread]
  · exact fun i hi => fill_bytes b b2 hi

theorem ideWriteSectorsFat_eq_one_iff :
    (∃ st', ideWriteSectorsFat d st sector b n = some (st', 1)) ↔ ¬Refused d st sector b n := by
  simp only [ideWriteSectorsFat, Refused]
  split
  · next hret =>
    split
    · next hlong => simp [hlong]
    · next hshort => simp [hret, hshort]
  · next hret => simp [hret]

theorem roundTrip_ide_iff (ht : st.primaryDev.storageType = .ide) :
    RoundTrip d st sector b n ↔ Refused d st sector b n := by
  constructor
  · intro h
    by_contra hrefused
    obtain ⟨st', hwrite⟩ := ideWriteSectorsFat_eq_one_iff.mpr hrefused
    have hkept : st'.primaryDev = st.primaryDev := by
      simp only [ideWriteSectorsFat] at hwrite
      split at hwrite
      · split at hwrite
        · cases hwrite
        · cases hwrite
          rfl
      · cases hwrite
    have hwrite' : secondaryStorageWrite d st sector b n = some (st', 1) := by
      simpa only [secondaryStorageWrite, ht] using hwrite
    obtain ⟨st'', b2', hread, -⟩ := h st' hwrite' b 0
    simp [secondaryStorageRead, hkept, ht] at hread
  · intro hrefused st' hwrite
    simp only [secondaryStorageWrite, ht] at hwrite
    exact absurd hrefused (ideWriteSectorsFat_eq_one_iff.mp ⟨st', hwrite⟩)

theorem primaryDev_setPrimaryDev {dev : ℤ} (hset : (st.storageDevs dev).set = 0) :
    (setPrimaryDev d st dev).1.primaryDev = st.storageDevs dev := by
  simp only [setPrimaryDev, hset, ne_eq, not_true_eq_false, if_false, selectDev]
  split
  · rfl
  · simp only [selectIdeDrive]
    split <;> rfl

end

/-- **When a write is read back**, on a drive that was selected: on an AHCI drive always, and on an
IDE drive only when the write did not return 1. -/
theorem roundTrip_iff {Port σ : Type} {d : Drivers Port σ} (hd : d.ahci.Stores 1)
    (st : Hal Port σ) (dev : ℤ) (hset : (st.storageDevs dev).set = 0) (sector n : UInt32)
    (b : ℕ → UInt8) :
    RoundTrip d (setPrimaryDev d st dev).1 sector b n ↔
      (st.storageDevs dev).storageType = .ahci ∨
        Refused d (setPrimaryDev d st dev).1 sector b n := by
  have hprimary := primaryDev_setPrimaryDev (d := d) hset
  cases ht : (st.storageDevs dev).storageType with
  | ahci =>
    exact ⟨fun _ => .inl rfl, fun _ => roundTrip_of_ahci hd (by rw [hprimary, ht])⟩
  | ide =>
    rw [roundTrip_ide_iff (by rw [hprimary, ht])]
    simp

section

variable {Port σ : Type} {d : Drivers Port σ} {st : Hal Port σ} {device : Device}

theorem selected_of_selectDev (hp : (selectDev st device).primaryDev = st.primaryDev)
    (ha : (selectDev st device).currentAhciDrive = st.currentAhciDrive)
    (hi : (selectDev st device).driveNum = st.driveNum) : Selected st device := by
  unfold selectDev at hp ha hi
  unfold Selected
  cases ht : device.storageType with
  | ahci =>
    rw [ht] at hp ha
    exact ⟨hp, ha⟩
  | ide =>
    simp only [ht, selectIdeDrive] at hp hi
    split at hp
    · next hvalid =>
      rw [if_pos hvalid] at hi
      exact ⟨hp, fun _ => hi⟩
    · next hvalid => exact ⟨hp, fun hmem => absurd hmem hvalid⟩

theorem Selected.selectDev_eq (h : Selected st device) : selectDev st device = st := by
  obtain ⟨rfl, h⟩ := h
  unfold selectDev
  cases ht : st.primaryDev.storageType with
  | ahci =>
    rw [ht] at h
    simp [selectAhciDrive, h]
  | ide =>
    rw [ht] at h
    simp only [selectIdeDrive]
    split
    · next hvalid => simp only [h hvalid]
    · rfl

end

/-- **When a call that fails changes nothing**: for an entry that is not set, and if the device is
the selected one. -/
theorem atomic_iff {Port σ : Type} (d : Drivers Port σ) (st : Hal Port σ) (dev : ℤ) :
    Atomic d st dev ↔ (st.storageDevs dev).set ≠ 0 ∨
      (d.attach (selectDev st (st.storageDevs dev))).2 = true ∨
      Selected st (st.storageDevs dev) := by
  unfold Atomic setPrimaryDev
  by_cases hset : (st.storageDevs dev).set = 0
  · cases hattach : d.attach (selectDev st (st.storageDevs dev)) with
    | mk disks attached =>
      simp only [hset, hattach, ne_eq, not_true_eq_false]
      cases attached with
      | true => simp
      | false =>
        simp only [Bool.false_eq_true, if_false, true_implies, false_or]
        constructor
        · exact fun h => selected_of_selectDev h.primaryDev h.ahci h.ide
        · intro h
          rw [h.selectDev_eq]
          exact ⟨rfl, rfl, rfl, fun _ _ _ _ => rfl, fun _ _ _ => rfl⟩
  · simp only [ne_eq, hset, not_false_eq_true, if_true, true_implies, true_or, iff_true]
    exact ⟨rfl, rfl, rfl, fun _ _ _ _ => rfl, fun _ _ _ => rfl⟩

/-! ### A sample -/

/-- A disk in memory, whose driver returns `ok`. -/
def memoryDisk (δ : Type) (ok : ℤ) : Driver δ (ℕ → UInt8) where
  write := fun _ lba _ data st =>
    (fun i => if lba * sectorSize ≤ i then data.getD (i - lba * sectorSize) (st i) else st i, ok)
  read := fun _ lba count st =>
    (st, ok, (List.range (count * sectorSize)).map fun i => st (lba * sectorSize + i))

theorem memoryDisk_stores (δ : Type) (ok : ℤ) : (memoryDisk δ ok).Stores ok := by
  intro drive lba count data st st' hlen hwrite
  cases hwrite
  refine ⟨_, Prod.ext rfl (Prod.ext rfl ?_)⟩
  refine List.ext_getElem (by simp [memoryDisk, hlen]) fun i hi hi' => ?_
  simp [memoryDisk, hi']

/-- One disk, which both drivers reach. -/
def sampleDrivers : Drivers Unit (ℕ → UInt8) where
  ahci := memoryDisk Unit 1
  ide := memoryDisk UInt8 0
  attach := fun st => (st.disks, true)

/-- A table with an AHCI drive in entry 0, and an IDE drive in all others. -/
def sampleHal : Hal Unit (ℕ → UInt8) where
  storageDevs := fun dev => ⟨0, if dev = 0 then .ahci else .ide, dev, 0, 1⟩
  primaryDev := ⟨-1, .ide, 0, 0, 0⟩
  ahciPort := fun _ => ()
  currentAhciDrive := 0
  validDriveNums := [0]
  driveNum := 0
  disks := fun _ => 0

theorem roundTrip_sampleHal :
    RoundTrip sampleDrivers (setPrimaryDev sampleDrivers sampleHal 0).1 5 (fun _ => 7) 1 :=
  (roundTrip_iff (memoryDisk_stores Unit 1) sampleHal 0 rfl 5 1 fun _ => 7).mpr (.inl rfl)

/-- A sector that was written to the IDE drive is not read back. -/
theorem not_roundTrip_sampleHal :
    ¬RoundTrip sampleDrivers (setPrimaryDev sampleDrivers sampleHal 1).1 5 (fun _ => 7) 1 := by
  rw [roundTrip_ide_iff rfl]
  simp [Refused, sampleDrivers, memoryDisk, sectorSize, tempbufferSize]

/-- If the file system is not attached to the IDE drive, it is selected all the same. -/
theorem not_atomic_sampleHal :
    ¬Atomic { sampleDrivers with attach := fun st => (st.disks, false) }
      (setPrimaryDev sampleDrivers sampleHal 0).1 1 := by
  intro h
  cases (h rfl).primaryDev

end AthenX.Storage
