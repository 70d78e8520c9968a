import Mathlib

/-!
# The interrupt line of a device

`remap_irq` of `drivers/pci/pci_mian.c` reads the dword with the interrupt line at the slot of the
device and writes it back at the slot that has the number of the bus.
-/

namespace AthenX.Pci

/-! ### The source -/

/-- A dword of the configuration space. -/
structure Location where
  bus : BitVec 8
  device : BitVec 5
  function : BitVec 3
  register : BitVec 6
deriving DecidableEq

/-- The dword that an address in the port `0xCF8` selects. -/
def select (a : BitVec 32) : Location :=
  ⟨a.extractLsb' 16 8, a.extractLsb' 11 5, a.extractLsb' 8 3, a.extractLsb' 2 6⟩

/-- The two ports of the configuration space. -/
structure Ports where
  address : BitVec 32
  config : Location → BitVec 32

/-- `outportl(0xCF8, v)`. -/
def Ports.outAddress (p : Ports) (v : BitVec 32) : Ports := { p with address := v }

/-- `inportl(0xCFC)`. -/
def Ports.inData (p : Ports) : BitVec 32 := p.config (select p.address)

/-- `outportl(0xCFC, v)`. -/
def Ports.outData (p : Ports) (v : BitVec 32) : Ports :=
  { p with config := Function.update p.config (select p.address) v }

/-- The address that `pci_read` and `pci_write` pack. -/
def pack (bus device function offset : BitVec 8) : BitVec 32 :=
  1 <<< 31 ||| bus.setWidth 32 <<< 16 ||| device.setWidth 32 <<< 11 |||
    function.setWidth 32 <<< 8 ||| (offset &&& 0xFC).setWidth 32

/-- `pci_read`. -/
def pciRead (p : Ports) (bus device function offset : BitVec 8) : Ports × BitVec 32 :=
  let p := p.outAddress (pack bus device function offset)
  (p, p.inData)

/-- `pci_write`. -/
def pciWrite (p : Ports) (bus device function offset : BitVec 8) (data : BitVec 32) : Ports :=
  (p.outAddress (pack bus device function offset)).outData data

/-- The fields of `pci_config_register` that `remap_irq` uses. -/
structure ConfigRegister where
  bus : BitVec 8
  slot : BitVec 8
  func : BitVec 8
  interruptLine : BitVec 8

/-- `remap_irq`: the ports and the record. -/
def remapIrq (p : Ports) (info : ConfigRegister) (irq : BitVec 32) : Ports × ConfigRegister :=
  let p := (pciRead p info.bus info.slot info.func 0x3C).1
  let newIrq := irq.setWidth 8
  let (p, current) := pciRead p info.bus info.slot info.func 0x3C
  let p := pciWrite p info.bus info.bus info.func 0x3C
    (current &&& 0xFFFFFF00 ||| newIrq.setWidth 32)
  let p := (pciRead p info.bus info.bus info.func 0x3C).1
  (p, { info with interruptLine := newIrq })

/-! ### The bytes -/

/-- A byte of the configuration space. -/
def byte (c : Location → BitVec 32) (l : Location) (i : Fin 4) : BitVec 8 :=
  (c l).extractLsb' (8 * i) 8

/-- The first byte of a dword is set and no other byte changes. -/
def Sets (c c' : Location → BitVec 32) (l : Location) (v : BitVec 8) : Prop :=
  ∀ k i, byte c' k i = if k = l ∧ i = 0 then v else byte c k i

theorem eq_of_bytes {x y : BitVec 32}
    (h : ∀ i : Fin 4, x.extractLsb' (8 * i) 8 = y.extractLsb' (8 * i) 8) : x = y := by
  ext k hk
  have hbit := congrArg (fun b => b.getLsbD (k % 8)) (h ⟨k / 8, by omega⟩)
  simpa [BitVec.getLsbD_extractLsb', Nat.mod_lt, Nat.div_add_mod, BitVec.getLsbD_eq_getElem hk]
    using hbit

/-- What `remap_irq` writes. -/
theorem extractLsb'_or (x : BitVec 32) (v : BitVec 8) (i : Fin 4) :
    (x &&& 0xFFFFFF00 ||| v.setWidth 32).extractLsb' (8 * i) 8 =
      if i = 0 then v else x.extractLsb' (8 * i) 8 := by
  refine BitVec.eq_of_getLsbD_eq fun j hj => ?_
  have hmask : ∀ i : Fin 4, ∀ j < 8,
      (0xFFFFFF00 : BitVec 32).getLsbD (8 * i + j) = decide (i ≠ 0) := by
    decide
  have hlt : 8 * i.val + j < 32 := by omega
  simp only [BitVec.getLsbD_extractLsb', BitVec.getLsbD_or, BitVec.getLsbD_and, hmask i j hj,
    BitVec.getLsbD_setWidth, hj, hlt, decide_true, Bool.true_and]
  by_cases hi : i = 0
  · simp [hi]
  · have hv : v.getLsbD (8 * i + j) = false :=
      BitVec.getLsbD_of_ge _ _ (by have := Fin.pos_iff_ne_zero.2 hi; omega)
    simp [hi, hv, hj]

theorem sets_iff {c c' : Location → BitVec 32} {l : Location} {v : BitVec 8} :
    Sets c c' l v ↔ c' = Function.update c l (c l &&& 0xFFFFFF00 ||| v.setWidth 32) := by
  have hupdate : ∀ k i, byte (Function.update c l (c l &&& 0xFFFFFF00 ||| v.setWidth 32)) k i =
      if k = l ∧ i = 0 then v else byte c k i := by
    intro k i
    by_cases hk : k = l
    · subst hk
      rw [byte, Function.update_self, extractLsb'_or]
      simp [byte]
    · simp [byte, hk]
  refine ⟨fun h => funext fun k => eq_of_bytes fun i => ?_, ?_⟩
  · exact (h k i).trans (hupdate k i).symm
  · rintro rfl
    exact hupdate

/-! ### The write -/

/-- The dword of a slot that holds the interrupt line. -/
def interruptLine (bus slot func : BitVec 8) : Location := select (pack bus slot func 0x3C)

/-- The call sets the interrupt line of the device, and nothing else, exactly if the bus number
selects the same device as the slot, or if both dwords hold already what is written. -/
theorem remapIrq_iff (p : Ports) (info : ConfigRegister) (irq : BitVec 32) :
    let a := interruptLine info.bus info.slot info.func
    let b := interruptLine info.bus info.bus info.func
    let v := p.config a &&& 0xFFFFFF00 ||| (irq.setWidth 8).setWidth 32
    Sets p.config (remapIrq p info irq).1.config a (irq.setWidth 8) ↔
      a = b ∨ p.config a = v ∧ p.config b = v := by
  intro a b v
  have hconfig : (remapIrq p info irq).1.config = Function.update p.config b v := rfl
  rw [sets_iff, hconfig]
  show Function.update p.config b v = Function.update p.config a v ↔ _
  constructor
  · intro h
    by_cases hab : a = b
    · exact .inl hab
    · have ha := congrFun h a
      have hb := congrFun h b
      rw [Function.update_of_ne hab, Function.update_self] at ha
      rw [Function.update_self, Function.update_of_ne (Ne.symm hab)] at hb
      exact .inr ⟨ha, hb.symm⟩
  · rintro (hab | ⟨ha, hb⟩)
    · rw [hab]
    · rw [Function.update_eq_self_iff.2 hb.symm, Function.update_eq_self_iff.2 ha.symm]

/-- Slot 3 of bus 0 keeps its line, and slot 0 of the bus gets the line. -/
theorem remapIrq_slot_three :
    let p : Ports := ⟨0, fun _ => 0⟩
    let q := (remapIrq p ⟨0, 3, 0, 0⟩ 11).1
    q.config (interruptLine 0 3 0) = 0 ∧ q.config (interruptLine 0 0 0) = 11 := by
  decide

end AthenX.Pci
