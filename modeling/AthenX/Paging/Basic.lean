import AthenX.Lib.Word32

/-!
# The page tables and the page stack

The paging code of `kernel/vmm/vmm.c` and the page allocator of `kernel/pmm/pmm.c`. Both reach
memory through the page tables they edit: the current directory is its own last page table, so the
tables appear as one array at `KERNEL_TABLES_VIRTUAL`, and the stack of free pages lies in pages
that were freed. So every access is translated here, by the two-level walk of the processor.

Physical memory is words by frame and index. An access to a page that is not present does not come
back, nor does `map` while `can_map` is false: such calls are `none`. Messages and the translation
cache are left out.
-/

namespace AthenX.Paging

/-! ### Layout and flags -/

/-- `PAGE_SIZE`. -/
def pageSize : UInt32 := 0x1000
/-- `PAGE_PRESENT`. -/
def pagePresent : UInt32 := 0x1
/-- `PAGE_WRITE`. -/
def pageWrite : UInt32 := 0x2
/-- `PAGE_ADDR_MASK`. -/
def pageAddrMask : UInt32 := 0xFFFFF000
/-- `PAGE_FLAGS_MASK`. -/
def pageFlagsMask : UInt32 := 0xFFF
/-- `KERNEL_ADDRESS_SPACE`. -/
def kernelAddressSpace : UInt32 := 0xF0000000
/-- `MOUNT_TABS_START`. -/
def mountTabsStart : UInt32 := 0xFD000000
/-- `PMM_STACK_START`. -/
def pmmStackStart : UInt32 := 0xFF7FF000
/-- `PMM_STACK_END`. -/
def pmmStackEnd : UInt32 := 0xFFBFF000
/-- `KERNEL_DIR_VIRTUAL`. -/
def kernelDirVirtual : UInt32 := 0xFFBFF000
/-- `KERNEL_TABLES_VIRTUAL`. -/
def kernelTablesVirtual : UInt32 := 0xFFC00000

theorem toNat_pageSize : pageSize.toNat = 4096 := rfl

/-- `PG_NUM_FROM_ADDR`. -/
def pgNumFromAddr (x : UInt32) : UInt32 := x >>> 12
/-- `PGDIR_IDX_FROM_ADDR`. -/
def pgdirIdxFromAddr (x : UInt32) : UInt32 := x >>> 22
/-- `PGTAB_IDX_FROM_ADDR`. -/
def pgtabIdxFromAddr (x : UInt32) : UInt32 := (x >>> 12) &&& 0x3FF

/-! ### The machine -/

/-- `page_directory_t`. -/
structure PageDirectory where
  /-- Physical address of the directory. -/
  physical : UInt32
  /-- Where the directory is mounted. -/
  directory : UInt32
  /-- Where its page tables are mounted, as one array. -/
  pages : UInt32
  deriving DecidableEq, Repr

/-- Memory, the paging registers and the global variables of `vmm.c` and `pmm.c`. -/
structure Machine where
  /-- Physical memory: word `i` of frame `f`. -/
  mem : ℕ → ℕ → UInt32
  cr3 : UInt32
  /-- The paging bit of `cr0`. -/
  pagingEnabled : Bool
  /-- What `current_directory` points to. -/
  currentDirectory : PageDirectory
  kernelDirectory : PageDirectory
  canMap : Bool
  pmmPagingActive : Bool
  pmmStackLoc : UInt32
  pmmStackMax : UInt32
  pmmLocation : UInt32

/-- The frame an address, or a table entry, refers to. -/
def frameOf (x : UInt32) : ℕ := (pgNumFromAddr x).toNat

/-- The word of its page an address refers to. -/
def wordOf (x : UInt32) : ℕ := ((x &&& pageFlagsMask) >>> 2).toNat

/-- Is the present bit of an entry set? -/
def present (e : UInt32) : Bool := e &&& pagePresent != 0

namespace Machine

/-- The walk of the processor: the frame and the word an address stands for. -/
def translate (m : Machine) (va : UInt32) : Option (ℕ × ℕ) :=
  if m.pagingEnabled then
    let pde := m.mem (frameOf m.cr3) (pgdirIdxFromAddr va).toNat
    if present pde then
      let pte := m.mem (frameOf pde) (pgtabIdxFromAddr va).toNat
      if present pte then some (frameOf pte, wordOf va) else none
    else none
  else some (frameOf va, wordOf va)

/-- Word `i` of frame `f` set to `v`. -/
def poke (m : Machine) (f i : ℕ) (v : UInt32) : Machine :=
  { m with mem := Function.update m.mem f (Function.update (m.mem f) i v) }

/-- `*va`. -/
def load (m : Machine) (va : UInt32) : Option UInt32 :=
  (m.translate va).map fun a => m.mem a.1 a.2

/-- `*va = v`. -/
def store (m : Machine) (va v : UInt32) : Option Machine :=
  (m.translate va).map fun a => m.poke a.1 a.2 v

/-- The first `n` words of the array at `va` set to `v 0`, `v 1`, …, in order. -/
def fill (va : UInt32) (v : ℕ → UInt32) : ℕ → Machine → Option Machine
  | 0,     m => some m
  | n + 1, m => do
      let m ← fill va v n m
      m.store (va + 4 * UInt32.ofNat n) (v n)

/-- `memset(va, 0, PAGE_SIZE)`. -/
def memsetPage (m : Machine) (va : UInt32) : Option Machine :=
  fill va (fun _ => 0) 1024 m

end Machine

/-! ### `pmm.c` -/

/-- `pmm_alloc_page`: from `pmm_location` before paging is active, then from the stack, without a
check for its bottom. -/
def pmmAllocPage (m : Machine) : Option (UInt32 × Machine) :=
  if m.pmmPagingActive then do
    let m := { m with pmmStackLoc := m.pmmStackLoc - 4 }
    let p ← m.load m.pmmStackLoc
    some (p, m)
  else some (m.pmmLocation, { m with pmmLocation := m.pmmLocation + pageSize })

/-- The state with the last page off the stack. -/
abbrev Machine.popped (m : Machine) : Machine := { m with pmmStackLoc := m.pmmStackLoc - 4 }

/-! ### `vmm.c` -/

/-- `map`. -/
def map (m : Machine) (va pa flags : UInt32) : Option Machine :=
  if m.canMap then do
    let dirEntry := pgdirIdxFromAddr va
    let pageNum := pgNumFromAddr va
    let e ← m.load (m.currentDirectory.directory + 4 * dirEntry)
    let m ← if e = 0 then do
        let (p, m) ← pmmAllocPage m
        let m ← m.store (m.currentDirectory.directory + 4 * dirEntry)
          (p ||| pagePresent ||| pageWrite)
        m.memsetPage (m.currentDirectory.pages + 4 * (dirEntry * 1024))
      else some m
    let m ← m.store (m.currentDirectory.pages + 4 * pageNum)
      ((pa &&& pageAddrMask) ||| pagePresent ||| flags)
    -- the comparison with the kernel directory only prints, but it does read
    if kernelAddressSpace ≤ va then do
      let _ ← m.load (m.currentDirectory.pages + 4 * pageNum)
      let _ ← m.load (m.kernelDirectory.pages + 4 * pageNum)
      some m
    else some m
  else none

/-- `unmap`. -/
def unmap (m : Machine) (va : UInt32) : Option Machine :=
  m.store (m.currentDirectory.pages + 4 * pgNumFromAddr va) 0

/-- `get_mapping`: the address that is stored if it returns `1`. -/
def getMapping (m : Machine) (va : UInt32) : Option (Option UInt32) := do
  let e ← m.load (m.currentDirectory.directory + 4 * pgdirIdxFromAddr va)
  if e = 0 then some none else do
    let pte ← m.load (m.currentDirectory.pages + 4 * pgNumFromAddr va)
    if pte ≠ 0 then some (some ((pte &&& pageAddrMask) + (va &&& pageFlagsMask)))
    else some none

/-- `pmm_free_page`. -/
def pmmFreePage (m : Machine) (p : UInt32) : Option Machine :=
  let p := p &&& pageAddrMask
  if p < m.pmmLocation then some m
  else if m.pmmStackMax ≤ m.pmmStackLoc then do
    let m ← map m m.pmmStackMax p (pagePresent ||| pageWrite)
    some { m with pmmStackMax := m.pmmStackMax + pageSize }
  else do
    let m ← m.store m.pmmStackLoc p
    some { m with pmmStackLoc := m.pmmStackLoc + 4 }

end AthenX.Paging
