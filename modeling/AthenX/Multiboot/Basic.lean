import Mathlib

/-!
# The memory map of the boot loader

The boot loader leaves a table of memory ranges. The `size` of an entry does not count the field
itself, so the next one is `size + 4` bytes behind. `pmm_collect_pages` of `kernel/pmm/pmm.c` frees
the pages of the available ranges, and `get_kernel_memory_map` of `kernel/kernel.c` looks for the
range of the kernel.

The loops take a bound on their iterations. Their results hold what they have done so far, and
whether they came to an end. The table is not written to.
-/

namespace AthenX.Multiboot

/-- Memory, by bytes. -/
abbrev Memory := UInt32 → UInt8

/-- The word at an address, which need not be aligned. -/
def load32 (mem : Memory) (a : UInt32) : UInt32 :=
  (mem a).toUInt32 ||| (mem (a + 1)).toUInt32 <<< 8 ||| (mem (a + 2)).toUInt32 <<< 16 |||
    (mem (a + 3)).toUInt32 <<< 24

/-- A `MULTIBOOT_MEMORY_MAP`: one entry of the table. -/
structure MemoryMap where
  size : UInt32
  addrLow : UInt32
  addrHigh : UInt32
  lenLow : UInt32
  lenHigh : UInt32
  type : UInt32
  deriving DecidableEq, Repr

/-- `MULTIBOOT_MEMORY_AVAILABLE`. -/
def memoryAvailable : UInt32 := 1

/-- `sizeof(MULTIBOOT_MEMORY_MAP)`. -/
def sizeofMemoryMap : UInt32 := 24

/-- The entry at an address. -/
def memoryMapAt (mem : Memory) (a : UInt32) : MemoryMap where
  size := load32 mem a
  addrLow := load32 mem (a + 4)
  addrHigh := load32 mem (a + 8)
  lenLow := load32 mem (a + 12)
  lenHigh := load32 mem (a + 16)
  type := load32 mem (a + 20)

/-- The fields of `MULTIBOOT_INFO` that the two functions read. -/
structure Info where
  memLow : UInt32
  memHigh : UInt32
  mmapLength : UInt32
  mmapAddr : UInt32
  deriving DecidableEq, Repr

/-! ### Collecting pages -/

/-- The page loop of `pmm_collect_pages`: the pages freed, and whether it ends. -/
def freeRange (limit : UInt32) : ℕ → UInt32 → List UInt32 × Bool
  | 0, _ => ([], false)
  | fuel + 1, j =>
      if j < limit then
        let (js, done) := freeRange limit fuel (j + 0x1000)
        (j :: js, done)
      else ([], true)

/-- What `pmm_collect_pages` has done. -/
structure Collected where
  /-- The addresses of the entries it has visited. -/
  visited : List UInt32
  /-- The arguments of its calls of `pmm_free_page`. -/
  freed : List UInt32
  done : Bool
  deriving DecidableEq, Repr

/-- What it does for one entry. -/
def collectEntry (fuel : ℕ) (me : MemoryMap) : List UInt32 × Bool :=
  if me.type = 1 then freeRange (me.addrLow + me.lenLow) fuel me.addrLow else ([], true)

/-- The loop of `pmm_collect_pages` over the entries. -/
def collect (mem : Memory) (limit : UInt32) : ℕ → UInt32 → Collected
  | 0, _ => ⟨[], [], false⟩
  | fuel + 1, i =>
      if i < limit then
        let me := memoryMapAt mem i
        let (js, ended) := collectEntry fuel me
        if ended then
          let c := collect mem limit fuel (i + (me.size + 4))
          ⟨i :: c.visited, js ++ c.freed, c.done⟩
        else ⟨[i], js, false⟩
      else ⟨[], [], true⟩

/-- `pmm_collect_pages`. -/
def pmmCollectPages (fuel : ℕ) (mem : Memory) (info : Info) : Collected :=
  collect mem (info.mmapAddr + info.mmapLength) fuel info.mmapAddr

/-! ### The memory of the kernel -/

/-- The start and the end of a section, which are symbols of `linker.ld`. -/
structure Section where
  startAddr : UInt32
  endAddr : UInt32
  deriving DecidableEq, Repr

def Section.len (s : Section) : UInt32 := s.endAddr - s.startAddr

/-- The sections of the kernel. -/
structure KernelSections where
  kernel : Section
  text : Section
  data : Section
  rodata : Section
  bss : Section
  deriving DecidableEq, Repr

/-- The start, the end and the length of a section, as `KERNEL_MEMORY_MAP` has them. -/
structure Extent where
  startAddr : UInt32
  endAddr : UInt32
  len : UInt32
  deriving DecidableEq, Repr

def Section.extent (s : Section) : Extent := ⟨s.startAddr, s.endAddr, s.len⟩

/-- A `KERNEL_MEMORY_MAP`. -/
structure KernelMemoryMap where
  kernel : Extent
  text : Extent
  data : Extent
  rodata : Extent
  bss : Extent
  totalMemory : UInt32
  /-- The memory that is available to the kernel. -/
  available : Extent
  deriving DecidableEq, Repr

/-- What the loop of `get_kernel_memory_map` has done. -/
structure Search where
  /-- The addresses of the entries it has visited. -/
  visited : List UInt32
  /-- The address of the entry at which it returned. -/
  found : Option UInt32
  done : Bool
  deriving DecidableEq, Repr

/-- The entry that the kernel looks for: its text starts there. -/
def MemoryMap.holds (textStart : UInt32) (e : MemoryMap) : Bool :=
  e.type = memoryAvailable && e.addrLow = textStart

/-- The loop of `get_kernel_memory_map`. -/
def search (mem : Memory) (info : Info) (textStart : UInt32) : ℕ → UInt32 → Search
  | 0, _ => ⟨[], none, false⟩
  | fuel + 1, i =>
      if i < info.mmapLength then
        let a := info.mmapAddr + i
        if (memoryMapAt mem a).holds textStart then ⟨[a], some a, true⟩
        else
          let r := search mem info textStart fuel (i + sizeofMemoryMap)
          ⟨a :: r.visited, r.found, r.done⟩
      else ⟨[], none, true⟩

/-- `get_kernel_memory_map`, with what its loop has done, unless it did not return. A null `kmap` is
an error, and so is a table without the entry. -/
def getKernelMemoryMap (fuel : ℕ) (mem : Memory) (info : Info) (sections : KernelSections)
    (kmap : Option KernelMemoryMap) : Search × Option (Option KernelMemoryMap × Int32) :=
  match kmap with
  | none => (⟨[], none, true⟩, some (none, -1))
  | some kmap =>
      let kmap :=
        { kmap with
          kernel := sections.kernel.extent
          text := sections.text.extent
          data := sections.data.extent
          rodata := sections.rodata.extent
          bss := sections.bss.extent
          totalMemory := info.memLow + info.memHigh }
      let r := search mem info kmap.text.startAddr fuel 0
      match r.found with
      | some a =>
          let mmap := memoryMapAt mem a
          let start := kmap.kernel.endAddr + 1024 * 1024
          let stop := mmap.addrLow + mmap.lenLow
          (r, some (some { kmap with available := ⟨start, stop, stop - start⟩ }, 0))
      | none => (r, if r.done then some (some kmap, -1) else none)

/-! ### Tables -/

/-- The entries `es`, one behind the other, from `a` to `b`. -/
inductive Laid (mem : Memory) : UInt32 → List MemoryMap → UInt32 → Prop
  | nil (a : UInt32) : Laid mem a [] a
  | cons {a b : UInt32} {e : MemoryMap} {es : List MemoryMap} :
      memoryMapAt mem a = e → 20 ≤ e.size.toNat → a.toNat + (e.size.toNat + 4) < 2 ^ 32 →
      Laid mem (a + (e.size + 4)) es b → Laid mem a (e :: es) b

/-- The table of the boot loader has the entries `es`, below the last address. -/
structure ValidMap (mem : Memory) (info : Info) (es : List MemoryMap) : Prop where
  noWrap : info.mmapAddr.toNat + info.mmapLength.toNat < 2 ^ 32
  laid : Laid mem info.mmapAddr es (info.mmapAddr + info.mmapLength)

/-- Memory that holds these words, from address zero on. -/
def ofWords (ws : List UInt32) : Memory := fun a =>
  (ws.getD (a.toNat / 4) 0 >>> UInt32.ofNat (8 * (a.toNat % 4))).toUInt8

end AthenX.Multiboot
