import AthenX.Lib.Chain

/-!
# The kernel heap

The allocator of `kernel/kheap/kheap.c`. The heap is divided into blocks of `BLOCK_SIZE` bytes, each
described by a `Node` on a list that starts at `memory_region`. An allocation marks a run of
consecutive nodes and a release clears it, so the list is never relinked.

The nodes are a store indexed by their addresses. `int` and `size_t` have 32 bits and wrap around. A
call that loops or follows a null pointer is `none`; the loops over the list take a bound on their
iterations, and a call returns when some bound is enough.
-/

namespace AthenX.KHeap

open Linked

/-- The address of a `Node` structure. -/
abbrev NodePtr := UInt32

/-- A `Node`: the description of one block of the heap. -/
structure Node where
  /-- Starting address of the block. -/
  addr : UInt32
  /-- Size of the block. -/
  size : UInt32
  /-- The next node of the list, or null. -/
  next : Option NodePtr
  allocated : Bool
  /-- Is this the first block of its allocation? -/
  firstBlock : Bool
  /-- Number of blocks of the allocation the node belongs to. -/
  numBlockUsed : UInt32
  /-- Size that was asked for, not rounded to whole blocks. -/
  totalRequestedMemory : UInt32
  deriving DecidableEq, Repr

/-- `BLOCK_SIZE`. -/
def blockSize : ℕ := 1024

/-- The global variables of the allocator. -/
structure Heap where
  /-- The node structures in memory. -/
  node : NodePtr → Node
  /-- `memory_region`, which is where the first node lies. -/
  memoryRegion : Option NodePtr
  /-- `total_region_size_g`. -/
  totalRegionSize : UInt32
  heapActive : Bool
  memLockAlloc : Bool
  memLockFree : Bool

namespace Heap

/-- The `next` links of the node store. -/
def next (h : Heap) (p : NodePtr) : Option NodePtr := (h.node p).next

/-- The nodes from `memory_region` on are `ns`. -/
abbrev Chained (h : Heap) (ns : List NodePtr) : Prop := Linked.Chain h.next h.memoryRegion ns

/-- Overwrite one node. -/
def modify (h : Heap) (p : NodePtr) (f : Node → Node) : Heap :=
  { h with node := Function.update h.node p (f (h.node p)) }

@[simp] theorem modify_self (h : Heap) (p : NodePtr) (f : Node → Node) :
    (h.modify p f).node p = f (h.node p) := by simp [modify]

theorem modify_of_ne (h : Heap) {p q : NodePtr} (f : Node → Node) (hq : q ≠ p) :
    (h.modify p f).node q = h.node q := by simp [modify, hq]

end Heap

/-! ### Searching a free zone -/

/-- The inner loop of `find_free_zone`: count free nodes, at most as many as are needed, up to a
node. -/
def countFree (h : Heap) : ℕ → Option NodePtr → ℕ × Option NodePtr
  | 0, cur => (0, cur)
  | _ + 1, none => (0, none)
  | k + 1, some p =>
      if (h.node p).allocated then (0, some p)
      else
        let (c, cur) := countFree h k (h.node p).next
        (c + 1, cur)

/-- The marking loop of `find_free_zone`, from iteration `i` on. -/
def markAllocated (num : Int32) : ℕ → ℕ → Option NodePtr → Heap → Option Heap
  | 0, _, _, h => some h
  | _ + 1, _, none, _ => none
  | k + 1, i, some p, h =>
      markAllocated num k (i + 1) (h.node p).next <| h.modify p fun nd =>
        { nd with allocated := true, firstBlock := i == 0, numBlockUsed := num.toUInt32 }

/-- The end of the outer loop: the search moves on, but stays on the last node. -/
def advance (h : Heap) : Option NodePtr → Option NodePtr
  | none => none
  | some p =>
      match (h.node p).next with
      | none => some p
      | some q => some q

/-- `find_free_zone`, with at most `fuel` iterations of its outer loop. -/
def findFreeZone : ℕ → Heap → Option NodePtr → UInt32 → Int32 → Option (Heap × UInt32)
  | 0, _, _, _, _ => none
  | _ + 1, h, none, _, _ => some (h, 0)
  | fuel + 1, h, some start, size, num =>
      if (h.node start).allocated then findFreeZone fuel h (advance h (some start)) size num
      else
        -- written before it is known whether the run is long enough
        let h := h.modify start fun nd => { nd with totalRequestedMemory := size }
        let (consecutive, cur) := countFree h num.toInt.toNat (some start)
        if num.toInt ≤ consecutive then
          (markAllocated num num.toInt.toNat 0 (some start) h).map fun h' =>
            (h', (h'.node start).addr)
        else findFreeZone fuel h (advance h cur) size num

/-- `sys_allocate_memory`. `size >= total_region_size_g` is unsigned, the rounding an `int` sum. -/
def sysAllocateMemory (fuel : ℕ) (h : Heap) (size : Int32) : Option (Heap × UInt32) :=
  if h.totalRegionSize ≤ size.toUInt32 then some (h, 0)
  else
    let numBlocksNeeded := (size + 1023) / 1024
    match h.memoryRegion with
    | none => none
    | some first => findFreeZone fuel h (h.node first).next size.toUInt32 numBlocksNeeded

/-! ### Releasing -/

/-- The search loop of `sys_free_memory`: the first node whose block starts at `addr`. -/
def findNode (h : Heap) (addr : UInt32) : ℕ → Option NodePtr → Option (Option NodePtr)
  | 0, _ => none
  | _ + 1, none => some none
  | fuel + 1, some p =>
      if (h.node p).addr ≠ addr then findNode h addr fuel (h.node p).next else some (some p)

/-- The clearing loop of `sys_free_memory`. -/
def markFree : ℕ → Option NodePtr → Heap → Option Heap
  | 0, _, h => some h
  | _ + 1, none, _ => none
  | k + 1, some p, h =>
      markFree k (h.node p).next <| h.modify p fun nd =>
        { nd with
          allocated := false, firstBlock := false, numBlockUsed := 0
          totalRequestedMemory := 0 }

/-- `sys_free_memory`: null after a release, else the address itself. -/
def sysFreeMemory (fuel : ℕ) (h : Heap) (addr : UInt32) : Option (Heap × UInt32) :=
  match findNode h addr fuel h.memoryRegion with
  | none => none
  | some none => some (h, addr)
  | some (some p) =>
      if (h.node p).allocated then
        (markFree (h.node p).numBlockUsed.toNat (some p) h).map fun h' => (h', 0)
      else some (h, addr)

/-! ### The size of a block -/

/-- The loop of `get_memory_size`. It does not look for the end, and returns `-1` without a block.
-/
def memorySize (h : Heap) (ptr : UInt32) : ℕ → Option NodePtr → Option UInt32
  | 0, _ => some (-1)
  | _ + 1, none => none
  | k + 1, some p =>
      if (h.node p).addr = ptr && (h.node p).allocated then
        some (h.node p).totalRequestedMemory
      else memorySize h ptr k (h.node p).next

/-- `get_memory_size`. The first node holds the number of nodes. -/
def getMemorySize (h : Heap) (ptr : UInt32) : Option UInt32 :=
  match h.memoryRegion with
  | none => none
  | some first => memorySize h ptr (h.node first).numBlockUsed.toNat (some first)

/-! ### The entry points -/

/-- `kmalloc`. It waits with interrupts disabled, so nobody can end a wait. -/
def kmalloc (fuel : ℕ) (h : Heap) (size : UInt32) : Option (Heap × UInt32) :=
  if h.heapActive = false then none
  else if h.memLockAlloc then none
  else
    (sysAllocateMemory fuel { h with memLockAlloc := true } size.toInt32).map fun (h', p) =>
      ({ h' with memLockAlloc := false }, p)

/-- `kfree`. -/
def kfree (fuel : ℕ) (h : Heap) (ptr : UInt32) : Option Heap :=
  if h.memLockFree then none
  else
    (sysFreeMemory fuel { h with memLockFree := true } ptr).map fun (h', _) =>
      { h' with memLockFree := false }

/-- A call, as a function of the bound on its loops, returns `r`. -/
def Returns {β : Type} (f : ℕ → Option β) (r : β) : Prop := ∃ fuel, f fuel = some r

end AthenX.KHeap
