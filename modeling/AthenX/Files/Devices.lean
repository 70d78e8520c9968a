import Mathlib

/-!
# The permissions of a virtual device

`drivers/virtual/devices.c`. `decode_device` allocates a structure and fills it in, all but the
two flags, of which `handle_virtual_device_fopen` sets the one for the mode. The other flag is what
was in the block before. `device_read` and `device_write` look at both.
-/

namespace AthenX.Files

/-! ### The source -/

/-- The bytes of a string. -/
def bytes (s : String) : List UInt8 := s.toList.map fun c => UInt8.ofNat c.toNat

/-- The functions of the devices. -/
inductive DeviceFunction where
  | readTty
  | writeTty
  | readMem
  | writeNull
  | writeFmb
  deriving DecidableEq, Repr

/-- `VirtualDevice`. A flag is a byte. -/
structure VirtualDevice where
  valid : ℤ
  deviceCode : ℤ
  readFlag : UInt8
  writeFlag : UInt8
  supportsRead : Bool
  supportsWrite : Bool
  read : Option DeviceFunction
  write : Option DeviceFunction
  deriving DecidableEq, Repr

/-- `VALID_VIRTUAL_DEVICE`. -/
def validVirtualDevice : ℤ := 0x45334

/-- The devices: a code, and the functions, null if not supported. -/
def deviceOf (path : List UInt8) : Option (ℤ × Option DeviceFunction × Option DeviceFunction) :=
  if path = bytes "/dev/tty" then some (0xEE1, some .readTty, some .writeTty)
  else if path = bytes "/dev/ttySO" then some (0xEE2, none, some .writeTty)
  else if path = bytes "/dev/random" then some (0xEE3, none, none)
  else if path = bytes "/dev/mem" then some (0xEE4, some .readMem, none)
  else if path = bytes "/dev/null" then some (0xEE5, none, some .writeNull)
  else if path = bytes "/dev/fmb" then some (0xEE6, none, some .writeFmb)
  else none

/-- `decode_device`, where `block` is what the new block holds. -/
def decodeDevice (block : VirtualDevice) (path : List UInt8) : Option VirtualDevice :=
  (deviceOf path).map fun (code, read, write) =>
    { block with
      valid := validVirtualDevice
      deviceCode := code
      supportsRead := read.isSome
      supportsWrite := write.isSome
      read := read
      write := write }

/-- The modes that set the read flag. -/
def readModes : List (List UInt8) := ["r", "rb", "r+", "rb+"].map bytes

/-- The modes that set the write flag. -/
def writeModes : List (List UInt8) := ["w", "wb", "w+", "wb+"].map bytes

/-- `handle_virtual_device_fopen`, where `malloc` has returned a block. -/
def handleVirtualDeviceFopen (block : VirtualDevice) (device mods : List UInt8) :
    Option VirtualDevice :=
  (decodeDevice block device).bind fun dev =>
    if mods ∈ readModes then some { dev with readFlag := 1 }
    else if mods ∈ writeModes then some { dev with writeFlag := 1 }
    else none

/-- The function that `device_read` calls, if it accepts the call. -/
def VirtualDevice.deviceRead (dev : VirtualDevice) : Option DeviceFunction :=
  if dev.supportsRead = true ∧ dev.readFlag = 1 then dev.read else none

/-- The function that `device_write` calls, if it accepts the call. -/
def VirtualDevice.deviceWrite (dev : VirtualDevice) : Option DeviceFunction :=
  if dev.supportsWrite = true ∧ dev.writeFlag = 1 then dev.write else none

/-! ### The property -/

/-- What may be called on a device that is opened. -/
def permissions (block : VirtualDevice) (device mods : List UInt8) :
    Option (Option DeviceFunction × Option DeviceFunction) :=
  (handleVirtualDeviceFopen block device mods).map fun dev => (dev.deviceRead, dev.deviceWrite)

/-- What the block held does not matter, and a device is only read or written as it is opened. -/
structure Independent (device mods : List UInt8) : Prop where
  same : ∀ b₁ b₂, permissions b₁ device mods = permissions b₂ device mods
  noWrite : mods = bytes "r" ∨ mods = bytes "rb" →
    ∀ b, ∀ p ∈ permissions b device mods, p.2 = none
  noRead : mods = bytes "w" ∨ mods = bytes "wb" →
    ∀ b, ∀ p ∈ permissions b device mods, p.1 = none

section

variable {device mods : List UInt8} {code : ℤ} {read write : Option DeviceFunction}

theorem permissions_eq (hdev : deviceOf device = some (code, read, write)) (b : VirtualDevice) :
    permissions b device mods =
      if mods ∈ readModes then some (read, if b.writeFlag = 1 then write else none)
      else if mods ∈ writeModes then some (if b.readFlag = 1 then read else none, write)
      else none := by
  rw [permissions, handleVirtualDeviceFopen, decodeDevice, hdev, Option.map_some, Option.bind_some]
  split
  · cases read <;> cases write <;> simp [VirtualDevice.deviceRead, VirtualDevice.deviceWrite]
  · split
    · cases read <;> cases write <;> simp [VirtualDevice.deviceRead, VirtualDevice.deviceWrite]
    · rfl

theorem not_mem_readModes (h : mods ∈ writeModes) : mods ∉ readModes := by
  have hall : ∀ mods ∈ writeModes, mods ∉ readModes := by decide +kernel
  exact hall mods h

/-- A block with given flags. -/
def blockWith (flag : UInt8) : VirtualDevice := ⟨0, 0, flag, flag, false, false, none, none⟩

theorem Independent.lacks (h : Independent device mods)
    (hdev : deviceOf device = some (code, read, write)) :
    (mods ∈ readModes → write = none) ∧ (mods ∈ writeModes → read = none) := by
  have hsame := h.same (blockWith 1) (blockWith 0)
  rw [permissions_eq hdev, permissions_eq hdev] at hsame
  constructor
  · intro hr
    rw [if_pos hr, if_pos hr] at hsame
    exact (Prod.mk.inj (Option.some.inj hsame)).2
  · intro hw
    have hr := not_mem_readModes hw
    rw [if_neg hr, if_neg hr, if_pos hw, if_pos hw] at hsame
    exact (Prod.mk.inj (Option.some.inj hsame)).1

theorem independent_of_lacks (hdev : deviceOf device = some (code, read, write))
    (hread : mods ∈ readModes → write = none) (hwrite : mods ∈ writeModes → read = none) :
    Independent device mods := by
  by_cases hr : mods ∈ readModes
  · have hw : mods ∉ writeModes := fun hw => not_mem_readModes hw hr
    have heq : ∀ b, permissions b device mods = some (read, none) := fun b => by
      rw [permissions_eq hdev, if_pos hr, hread hr, ite_self]
    refine ⟨fun b1 b2 => by rw [heq, heq], fun _ b p hp => ?_, fun hmods => ?_⟩
    · rw [heq] at hp
      exact Option.some.inj hp ▸ rfl
    · exact absurd (by rcases hmods with rfl | rfl <;> decide +kernel) hw
  · have heq : ∀ b, permissions b device mods =
        if mods ∈ writeModes then some (none, write) else none := fun b => by
      rw [permissions_eq hdev, if_neg hr]
      split
      · next hw => rw [hwrite hw, ite_self]
      · rfl
    refine ⟨fun b1 b2 => by rw [heq, heq], fun hmods => ?_, fun _ b p hp => ?_⟩
    · exact absurd (by rcases hmods with rfl | rfl <;> decide +kernel) hr
    · rw [heq] at hp
      split at hp
      · exact Option.some.inj hp ▸ rfl
      · cases hp

end

/-- **When the permissions depend on the path and the mode alone**: if a device that is opened to be
read has no function to write with, and the other way round. -/
theorem independent_iff (device mods : List UInt8) :
    Independent device mods ↔ ∀ code read write, deviceOf device = some (code, read, write) →
      (mods ∈ readModes → write = none) ∧ (mods ∈ writeModes → read = none) := by
  constructor
  · exact fun h code read write hdev => h.lacks hdev
  · intro h
    cases hdev : deviceOf device with
    | none =>
      have hnone : ∀ b, permissions b device mods = none := fun b => by
        rw [permissions, handleVirtualDeviceFopen, decodeDevice, hdev]
        rfl
      exact ⟨fun b1 b2 => by rw [hnone, hnone], fun _ b => by simp [hnone],
        fun _ b => by simp [hnone]⟩
    | some x => exact independent_of_lacks hdev (h _ _ _ hdev).1 (h _ _ _ hdev).2

/-- The terminal, if it is opened to be read. -/
theorem not_independent_tty : ¬Independent (bytes "/dev/tty") (bytes "r") := by
  intro h
  have hdev : deviceOf (bytes "/dev/tty") = some (0xEE1, some .readTty, some .writeTty) := rfl
  cases (h.lacks hdev).1 (by decide +kernel)

end AthenX.Files
