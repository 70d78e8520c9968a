import AthenX.Storage.Hal

/-!
# Writing to an IDE drive

`ide_write_sectors` and `ide_read_sectors` of `drivers/disk/ata/ide.c` under
`ide_write_sectors_fat`. The number of sectors is an `uint8`, the check against the size of the
drive is a sum that goes round, and for a drive that is not of type ATA the error code is never
assigned. The routine that talks to the controller is a parameter.
-/

namespace AthenX.Storage

open List

/-! ### The source -/

/-- `type` of `IDE_DEVICE`. -/
inductive IdeType where
  | ata
  | atapi
  deriving DecidableEq, Repr

/-- `IDE_DEVICE`, as far as the two functions look at it. -/
structure IdeDevice where
  reserved : UInt8
  type : IdeType
  size : UInt32
  deriving DecidableEq, Repr

/-- `MAXIMUM_IDE_DEVICES`. -/
def maximumIdeDevices : ℕ := 5

/-- What is behind the two functions. -/
structure IdeBus (σ : Type) where
  /-- `g_ide_devices`, and what follows the array. -/
  devices : UInt8 → IdeDevice
  /-- `ide_ata_access` for a drive, a sector and a number of sectors. -/
  write : UInt8 → ℕ → ℕ → List UInt8 → σ → σ × UInt8
  read : UInt8 → ℕ → ℕ → σ → σ × UInt8 × List UInt8
  /-- The error register of the controller. -/
  errorRegister : UInt8
  /-- The variable `err`, if nothing is assigned to it. -/
  staleErr : UInt8

/-- The bits of the error register and their codes. The last one that is tested decides. -/
def errorCodes : List (UInt8 × UInt8) :=
  [(0x80, 13), (0x40, 22), (0x20, 3), (0x10, 21), (0x08, 3), (0x04, 20), (0x02, 3), (0x01, 7)]

/-- `ide_print_error`. -/
def idePrintError (st err : UInt8) : UInt8 :=
  if err = 1 then 19
  else if err = 2 then ((errorCodes.find? fun x => st &&& x.1 ≠ 0).map Prod.snd).getD 2
  else if err = 3 then 23
  else if err = 4 then 8
  else err

section

variable {σ : Type} (bus : IdeBus σ)

/-- The error code, unless the drive is there and `lba + num_sectors` is not behind its end. -/
def IdeBus.refusal (drive : UInt8) (lba num : ℕ) : Option ℤ :=
  let dev := bus.devices drive
  if maximumIdeDevices < drive.toNat ∨ dev.reserved = 0 then some (-1)
  else if dev.size.toNat < (lba + num) % 2 ^ 32 ∧ dev.type = .ata then some (-2)
  else none

/-- What comes back for a write. Unless the drive is of type ATA, nothing is assigned to `err`. -/
def IdeBus.writeReply (drive : UInt8) (lba num : ℕ) (data : List UInt8) (disks : σ) : σ × UInt8 :=
  if (bus.devices drive).type = .ata then bus.write drive lba num data disks
  else (disks, bus.staleErr)

/-- What comes back for a read. -/
def IdeBus.readReply (drive : UInt8) (lba num : ℕ) (disks : σ) : σ × UInt8 × List UInt8 :=
  if (bus.devices drive).type = .ata then bus.read drive lba num disks
  else (disks, bus.staleErr, [])

/-- `ide_write_sectors`. -/
def ideWriteSectors (drive : UInt8) (lba num : ℕ) (data : List UInt8) (disks : σ) : σ × ℤ :=
  match bus.refusal drive lba num with
  | some code => (disks, code)
  | none =>
      let (disks, err) := bus.writeReply drive lba num data disks
      (disks, (idePrintError bus.errorRegister err).toNat)

/-- `ide_read_sectors`. -/
def ideReadSectors (drive : UInt8) (lba num : ℕ) (disks : σ) : σ × ℤ × List UInt8 :=
  match bus.refusal drive lba num with
  | some code => (disks, code, [])
  | none =>
      let (disks, err, data) := bus.readReply drive lba num disks
      (disks, (idePrintError bus.errorRegister err).toNat, data)

/-- The driver. -/
def ideDriver : Driver UInt8 σ := ⟨ideWriteSectors bus, ideReadSectors bus⟩

/-! ### The property -/

/-- One sector of a buffer. -/
def sectorOf (b : ℕ → UInt8) (i : ℕ) : List UInt8 :=
  (List.range sectorSize).map fun j => b (i * sectorSize + j)

/-- The routine is right without an error. `content` is what the drives hold, `log` what was
written. -/
structure Records (content : σ → UInt8 → ℕ → List UInt8) (log : σ → List (UInt8 × ℕ)) : Prop where
  write : ∀ {drive lba num b st st'},
    bus.write drive lba num (bytes b (num * sectorSize)) st = (st', 0) →
    log st' = log st ++ (List.range num).map (fun i => (drive, lba + i)) ∧
      ∀ i < num, content st' drive (lba + i) = sectorOf b i
  read : ∀ drive lba num st, log (bus.read drive lba num st).1 = log st ∧
    content (bus.read drive lba num st).1 = content st

/-- The request gets through: the drive is there, the sum that goes round is not behind its end, no
error comes back, and `tempbuffer` holds what drive 0 then gives. -/
structure IdeBus.Accepts (drive : UInt8) (lba num : ℕ) (data : List UInt8) (disks : σ) : Prop where
  sound : bus.refusal drive lba num = none
  reply : (bus.writeReply drive lba num data disks).2 = 0
  back : bus.refusal 0 lba num = none →
    (bus.readReply 0 lba num (bus.writeReply drive lba num data disks).1).2.2.length ≤
      tempbufferSize

/-- If the call returns 1, the sectors are on the drive, all were written, and they hold the buffer.
-/
def Justified {Port : Type} (d : Drivers Port σ) (content : σ → UInt8 → ℕ → List UInt8)
    (log : σ → List (UInt8 × ℕ)) (st : Hal Port σ) (sector : UInt32) (b : ℕ → UInt8) (n : UInt32) :
    Prop :=
  ∀ st', ideWriteSectorsFat d st sector b n = some (st', 1) →
    sector.toNat + n.toNat ≤ (bus.devices (UInt8.ofInt st.driveNum)).size.toNat ∧
    (∃ new, log st'.disks = log st.disks ++ new ∧
      ∀ i < n.toNat, (UInt8.ofInt st.driveNum, sector.toNat + i) ∈ new) ∧
    ∀ i < n.toNat, content st'.disks (UInt8.ofInt st.driveNum) (sector.toNat + i) = sectorOf b i

end

section

variable {σ : Type} {bus : IdeBus σ} {content : σ → UInt8 → ℕ → List UInt8}
  {log : σ → List (UInt8 × ℕ)} {drive : UInt8} {lba num : ℕ} {data : List UInt8} {disks disks' : σ}

theorem eq_zero_of_idePrintError {st err : UInt8} (h : idePrintError st err = 0) : err = 0 := by
  unfold idePrintError at h
  split_ifs at h
  · exact absurd h (by decide)
  · cases hfind : errorCodes.find? fun x => st &&& x.1 ≠ 0 with
    | none =>
      rw [hfind] at h
      exact absurd h (by decide)
    | some x =>
      have hall : ∀ x ∈ errorCodes, x.2 ≠ 0 := by simp [errorCodes]
      rw [hfind] at h
      exact absurd h (hall x (mem_of_find?_eq_some hfind))
  · exact absurd h (by decide)
  · exact absurd h (by decide)
  · exact h

theorem refusal_ne_zero : bus.refusal drive lba num ≠ some 0 := by
  simp only [IdeBus.refusal]
  split_ifs <;> decide

theorem ideWriteSectors_eq_zero_iff :
    (ideWriteSectors bus drive lba num data disks).2 = 0 ↔
      bus.refusal drive lba num = none ∧ (bus.writeReply drive lba num data disks).2 = 0 := by
  unfold ideWriteSectors
  split
  · next code hcode =>
    simp only [hcode, reduceCtorEq, false_and, iff_false]
    rintro rfl
    exact refusal_ne_zero hcode
  · next hnone =>
    simp only [hnone, true_and]
    constructor
    · exact fun h => eq_zero_of_idePrintError (UInt8.toNat_inj.mp (Int.ofNat_inj.mp h))
    · intro h
      rw [h]
      rfl

theorem disks_ideWriteSectors (h : bus.refusal drive lba num = none) :
    (ideWriteSectors bus drive lba num data disks).1 =
      (bus.writeReply drive lba num data disks).1 := by
  simp only [ideWriteSectors, h]

theorem of_writeReply (h : (bus.writeReply drive lba num data disks).2 = 0) :
    ((bus.devices drive).type = .ata ∧
        bus.write drive lba num data disks = ((bus.writeReply drive lba num data disks).1, 0)) ∨
      ((bus.devices drive).type = .atapi ∧
        (bus.writeReply drive lba num data disks).1 = disks) := by
  unfold IdeBus.writeReply at h ⊢
  cases ht : (bus.devices drive).type with
  | ata =>
    rw [ht] at h
    exact .inl ⟨rfl, Prod.ext rfl h⟩
  | atapi => exact .inr ⟨rfl, rfl⟩

theorem Records.ideReadSectors (h : Records bus content log) :
    log (ideReadSectors bus drive lba num disks).1 = log disks ∧
      content (ideReadSectors bus drive lba num disks).1 = content disks := by
  unfold Storage.ideReadSectors
  split
  · exact ⟨rfl, rfl⟩
  · unfold IdeBus.readReply
    split_ifs
    · exact h.read drive lba num disks
    · exact ⟨rfl, rfl⟩

variable {Port : Type} {d : Drivers Port σ} {st st' : Hal Port σ} {sector n : UInt32}
  {b : ℕ → UInt8}

theorem not_refused_iff (hd : d.ide = ideDriver bus) :
    ¬Refused d st sector b n ↔ bus.Accepts (UInt8.ofInt st.driveNum) sector.toNat (n.toNat % 256)
      (bytes b (n.toNat % 256 * sectorSize)) st.disks := by
  simp only [Refused, hd, ideDriver, not_or, not_not, Nat.not_lt, ideWriteSectors_eq_zero_iff]
  constructor
  · rintro ⟨⟨hsound, hreply⟩, hback⟩
    refine ⟨hsound, hreply, fun hzero => ?_⟩
    simpa only [ideReadSectors, hzero, disks_ideWriteSectors hsound] using hback
  · rintro ⟨hsound, hreply, hback⟩
    refine ⟨⟨hsound, hreply⟩, ?_⟩
    rw [disks_ideWriteSectors hsound]
    unfold ideReadSectors
    split
    · exact Nat.zero_le _
    · next hzero => exact hback hzero

theorem of_ideWriteSectorsFat (hd : d.ide = ideDriver bus) (h : Records bus content log)
    (hres : ideWriteSectorsFat d st sector b n = some (st', 1)) :
    let written := bus.writeReply (UInt8.ofInt st.driveNum) sector.toNat (n.toNat % 256)
      (bytes b (n.toNat % 256 * sectorSize)) st.disks
    written.2 = 0 ∧ log st'.disks = log written.1 ∧ content st'.disks = content written.1 := by
  have haccepts := (not_refused_iff hd).mp (ideWriteSectorsFat_eq_one_iff.mp ⟨st', hres⟩)
  refine ⟨haccepts.reply, ?_⟩
  unfold ideWriteSectorsFat at hres
  simp only [hd] at hres
  split_ifs at hres with hret
  · cases hres
    rw [← disks_ideWriteSectors haccepts.sound]
    exact h.ideReadSectors
  · cases hres

end

/-- **When the return value 1 is justified**: if the request does not get through, or for fewer than
256 sectors, all in front of the end of the drive, which is of type ATA. -/
theorem justified_iff {Port σ : Type} {bus : IdeBus σ} {content : σ → UInt8 → ℕ → List UInt8}
    {log : σ → List (UInt8 × ℕ)} (h : Records bus content log) {d : Drivers Port σ}
    (hd : d.ide = ideDriver bus) (st : Hal Port σ) (sector n : UInt32) (b : ℕ → UInt8) :
    Justified bus d content log st sector b n ↔
      (bus.Accepts (UInt8.ofInt st.driveNum) sector.toNat (n.toNat % 256)
          (bytes b (n.toNat % 256 * sectorSize)) st.disks →
        n.toNat < 256 ∧
        sector.toNat + n.toNat ≤ (bus.devices (UInt8.ofInt st.driveNum)).size.toNat ∧
        ((bus.devices (UInt8.ofInt st.driveNum)).type = .ata ∨ n = 0)) := by
  rw [← not_refused_iff hd]
  constructor
  · intro hj hrefused
    obtain ⟨st', hres⟩ := ideWriteSectorsFat_eq_one_iff.mpr hrefused
    obtain ⟨hsize, ⟨new, hlog, hnew⟩, -⟩ := hj st' hres
    obtain ⟨hreply, hlog', -⟩ := of_ideWriteSectorsFat hd h hres
    rw [hlog'] at hlog
    rcases of_writeReply hreply with ⟨ht, hwrite⟩ | ⟨-, hsame⟩
    · rw [(h.write hwrite).1] at hlog
      obtain rfl := append_cancel_left hlog
      -- the last sector is among those that were written
      have hlt : n.toNat < 256 := by
        by_contra hge
        obtain ⟨i, hi, heq⟩ := mem_map.mp (hnew (n.toNat - 1) (by omega))
        have hi := mem_range.mp hi
        have := (Prod.mk.inj heq).2
        omega
      exact ⟨hlt, hsize, .inl ht⟩
    · rw [hsame] at hlog
      obtain rfl := append_right_eq_self.mp hlog.symm
      have hzero : n.toNat = 0 := by
        by_contra hpos
        exact absurd (hnew 0 (by omega)) not_mem_nil
      exact ⟨by omega, hsize, .inr (UInt32.toNat_inj.mp hzero)⟩
  · intro hcond st' hres
    obtain ⟨hlt, hsize, ht⟩ := hcond (ideWriteSectorsFat_eq_one_iff.mp ⟨st', hres⟩)
    refine ⟨hsize, ?_⟩
    obtain ⟨hreply, hlog, hcontent⟩ := of_ideWriteSectorsFat hd h hres
    rw [hlog, hcontent]
    rw [Nat.mod_eq_of_lt hlt] at hreply ⊢
    rcases of_writeReply hreply with ⟨-, hwrite⟩ | ⟨htype, hsame⟩
    · obtain ⟨hlog, hcontent⟩ := h.write hwrite
      refine ⟨⟨_, hlog, fun i hi => ?_⟩, hcontent⟩
      exact mem_map.mpr ⟨i, mem_range.mpr hi, rfl⟩
    · obtain rfl : n = 0 := ht.resolve_left fun hata => nomatch hata.symm.trans htype
      rw [hsame]
      exact ⟨⟨[], (append_nil _).symm, fun i hi => absurd hi (Nat.not_lt_zero i)⟩,
        fun i hi => absurd hi (Nat.not_lt_zero i)⟩

/-! ### A sample -/

/-- Drives of 100 sectors in memory, with a list of the sectors written. -/
def memoryBus : IdeBus ((UInt8 → ℕ → List UInt8) × List (UInt8 × ℕ)) where
  devices := fun _ => ⟨1, .ata, 100⟩
  write := fun drive lba num data st =>
    ((fun x s => if x = drive ∧ lba ≤ s ∧ s < lba + num then
        (data.drop ((s - lba) * sectorSize)).take sectorSize else st.1 x s,
      st.2 ++ (List.range num).map fun i => (drive, lba + i)), 0)
  read := fun drive lba num st => (st, 0, (List.range num).flatMap fun i => st.1 drive (lba + i))
  errorRegister := 0
  staleErr := 0

theorem records_memoryBus : Records memoryBus Prod.fst Prod.snd where
  write := by
    intro drive lba num b st st' h
    cases h
    refine ⟨rfl, fun i hi => ?_⟩
    have hle : (i + 1) * sectorSize ≤ num * sectorSize := Nat.mul_le_mul_right sectorSize hi
    rw [Nat.add_one_mul] at hle
    have hsector : ((bytes b (num * sectorSize)).drop (i * sectorSize)).take sectorSize =
        sectorOf b i := by
      refine ext_getElem (by simp [sectorOf]; omega) fun j hj hj' => ?_
      simp [bytes, sectorOf]
    simp only [true_and, Nat.add_sub_cancel_left]
    rw [if_pos (by omega), hsector]
  read := fun _ _ _ _ => ⟨rfl, rfl⟩

/-- The storage layer over these drives, with drive 0 selected. -/
def memoryDrivers : Drivers Unit ((UInt8 → ℕ → List UInt8) × List (UInt8 × ℕ)) where
  ahci := ⟨fun _ _ _ _ st => (st, 0), fun _ _ _ st => (st, 0, [])⟩
  ide := ideDriver memoryBus
  attach := fun st => (st.disks, true)

def memoryHal : Hal Unit ((UInt8 → ℕ → List UInt8) × List (UInt8 × ℕ)) :=
  ⟨fun _ => ⟨0, .ide, 0, 0, 1⟩, ⟨0, .ide, 0, 0, 1⟩, fun _ => (), 0, [0], 0, (fun _ _ => [], [])⟩

theorem justified_memoryHal :
    Justified memoryBus memoryDrivers Prod.fst Prod.snd memoryHal 5 (fun _ => 7) 1 :=
  (justified_iff records_memoryBus rfl memoryHal 5 1 fun _ => 7).mpr
    fun _ => ⟨by decide, by decide, .inl rfl⟩

/-- For 256 sectors nothing is written, although the drive has only 100. -/
theorem not_justified_memoryHal :
    ¬Justified memoryBus memoryDrivers Prod.fst Prod.snd memoryHal 0 (fun _ => 7) 256 := by
  intro h
  have hsize := (h _ rfl).1
  revert hsize
  decide

end AthenX.Storage
