import AthenX.KHeap.Stdlib
import AthenX.KHeap.Residue

/-!
# The blocks that are allocated

What a caller of `kmalloc`, `malloc_int` and `kfree` has to know of the heap: which blocks are
allocated, and that they are apart. A call that returns adds one block, or none when it returns
null, or takes one away.
-/

namespace AthenX.KHeap

open Linked List

/-- In the heap `h`, reached from `h₀`, the blocks `as` are allocated. -/
structure Owns (h₀ : Heap) (ns : List NodePtr) (h : Heap) (as : List Allocation) : Prop where
  nodes : SameNodes h₀ h
  runs : ∃ runs, Runs h ns runs ∧ runs.map Prod.fst = as

/-- There is an allocated block at `p`. -/
def Live (h : Heap) (ns : List NodePtr) (p : UInt32) : Prop :=
  ∃ q ∈ ns, (h.node q).addr = p ∧ (h.node q).allocated = true ∧ (h.node q).firstBlock = true

variable {n : ℕ} {q : NodePtr} {l : List NodePtr}

section

variable {h₀ h h' : Heap} {ns : List NodePtr} {base as : List Allocation} {a b : Allocation}
  {size p : UInt32} {s s' : Allocator}

/-- A size that an `int` can round up. -/
theorem sizeFits_ofNat {h : Heap} (h1 : 1 ≤ n) (h2 : n + 1023 ≤ 2147483647) :
    SizeFits h (UInt32.ofNat n) := by
  refine .inl ?_
  rw [UInt32.toNat_ofNat_of_lt' (Nat.lt_of_le_of_lt (by omega : n ≤ 2147483647) (by decide))]
  exact ⟨h1, h2⟩

theorem toNat_size_ofNat (h : n < 2147483648) : (UInt32.ofNat n).toInt32.toInt.toNat = n := by
  have hnat : (UInt32.ofNat n).toNat = n :=
    UInt32.toNat_ofNat_of_lt' (by simp only [UInt32.size]; omega)
  rw [toInt_toInt32, if_pos (by omega), hnat, Int.toNat_natCast]

theorem Ready.owns (hb : Ready h₀ ns base) : Owns h₀ ns h₀ base := ⟨SameNodes.refl h₀, hb.runs⟩

theorem Ready.same (hb : Ready h₀ ns base) (hn : SameNodes h₀ h) :
    h.heapActive = true ∧ h.memLockAlloc = false ∧ h.Chained ns ∧ Spaced h ns :=
  ⟨hn.heapActive.trans hb.active, hn.memLockAlloc.trans hb.unlocked,
    hn.chained hb.chain, hn.spaced hb.spaced⟩

namespace Owns

section

variable (h1 : Owns h₀ ns h as) (hb : Ready h₀ ns base)

include h1 hb

theorem chain : h.Chained ns := h1.nodes.chained hb.chain

theorem spaced : Spaced h ns :=
  h1.nodes.spaced hb.spaced

/-- `kmalloc` of a size that fits. -/
theorem kmalloc (hsize : SizeFits h size) (hret : Returns (kmalloc · h size) (h', p)) :
    Owns h₀ ns h' (if p = 0 then as else as ++ [⟨p, size.toInt32⟩]) := by
  obtain ⟨runs, hr, rfl⟩ := h1.runs
  have hn := h1.nodes
  obtain ⟨hn', runs', hr', hmap⟩ := runs_kmalloc (h1.chain hb) (h1.spaced hb) hr
    (hn.heapActive.trans hb.active) (hn.memLockAlloc.trans hb.unlocked) hsize hret
  exact ⟨hn.trans hn', runs', hr', hmap⟩

end

/-- `malloc_int` allocates as `kmalloc` does. -/
theorem mallocInt (h1 : Owns h₀ ns s.heap as) (hb : Ready h₀ ns base) (hsize : SizeFits s.heap size)
    (hret : Returns (mallocInt · s size) (s', p)) :
    Owns h₀ ns s'.heap (if p = 0 then as else as ++ [⟨p, size.toInt32⟩]) := by
  obtain ⟨fuel, hret⟩ := hret
  obtain ⟨⟨h', q⟩, hk, he⟩ := Option.map_eq_some_iff.mp hret
  have h2 := h1.kmalloc hb hsize ⟨fuel, hk⟩
  by_cases hq : q = 0
  · simp only [hq] at he h2
    obtain ⟨rfl, rfl⟩ := he
    rwa [if_pos rfl]
  · simp only [hq] at he h2
    obtain ⟨rfl, rfl⟩ := he
    rwa [if_neg hq]

section

variable (h1 : Owns h₀ ns h as)

include h1

theorem node (ha : a ∈ as) : ∃ q ∈ ns.tail, (h.node q).addr = a.ptr ∧ (h.node q).allocated = true ∧
      (h.node q).firstBlock = true := by
  obtain ⟨runs, hr, rfl⟩ := h1.runs
  obtain ⟨x, hx, rfl⟩ := mem_map.mp ha
  have hrun := hr.isRun x hx
  obtain ⟨q, hhead, hq⟩ := Option.map_eq_some_iff.mp hrun.ptr
  have hmem := mem_of_mem_head? hhead
  have htail := hrun.consecutive.subset hmem
  have hns := mem_of_mem_tail htail
  exact ⟨q, htail, hq, (hr.allocated q hns).mpr ⟨x, hx, hmem⟩, (hr.first q hns).mpr ⟨x, hx, hhead⟩⟩

variable (hb : Ready h₀ ns base)

include hb

/-- `kfree` of a block. -/
theorem kfree (ha : a ∈ as) (hret : Returns (kfree · h a.ptr) h') : Owns h₀ ns h' (as.erase a) := by
  obtain ⟨runs, hr, rfl⟩ := h1.runs
  obtain ⟨hn', runs', hr', hmap⟩ := runs_kfree (h1.chain hb) (h1.spaced hb) hr
    (h1.nodes.memLockFree.trans hb.unlockedFree) ha hret
  exact ⟨h1.nodes.trans hn', runs', hr', hmap⟩

/-- `kfree` of null. -/
theorem kfree_zero (hret : Returns (KHeap.kfree · h 0) h') : Owns h₀ ns h' as := by
  obtain ⟨runs, hr, rfl⟩ := h1.runs
  have hl : h.memLockFree = false := h1.nodes.memLockFree.trans hb.unlockedFree
  obtain ⟨fuel, hres⟩ := hret
  simp only [KHeap.kfree, hl] at hres
  obtain ⟨⟨h'', r⟩, hfree, rfl⟩ := Option.map_eq_some_iff.mp hres
  have hchain : Chain ({ h with memLockFree := true } : Heap).next h.memoryRegion ns := h1.chain hb
  obtain rfl := sysFreeMemory_zero hchain (h1.spaced hb) (hr.of_node rfl) ⟨fuel, hfree⟩
  have hsame : SameNodes h₀ { h with memLockFree := false } := by
    obtain ⟨h1, h2, h3, h4, h5, h6, h7, h8⟩ := h1.nodes
    exact ⟨h1, h2, h3, h4, hb.unlockedFree.symm, h6, h7, h8⟩
  exact ⟨hsame, runs, hr.of_node rfl, rfl⟩

theorem ptr_ne_zero (ha : a ∈ as) : a.ptr ≠ 0 := by
  obtain ⟨q, hq, hnode⟩ := h1.node ha
  exact hnode.1 ▸ (h1.spaced hb).addr_ne_zero hq

/-- **Two blocks are apart.** -/
theorem apart (ha : a ∈ as) (hb' : b ∈ as)
    (hne : a.ptr ≠ b.ptr) : a.ptr.toNat + blockSize ≤ b.ptr.toNat ∨
      b.ptr.toNat + blockSize ≤ a.ptr.toNat := by
  obtain ⟨p, hp, hpa, -⟩ := h1.node ha
  obtain ⟨q, hq, hqb, -⟩ := h1.node hb'
  have hs := h1.spaced hb
  rw [← hpa, ← hqb] at hne ⊢
  by_contra hnot
  simp only [not_or, Nat.not_le] at hnot
  rcases Nat.le_total (h.node p).addr.toNat (h.node q).addr.toNat with hle | hle
  · exact hne (hs.eq_of_block (mem_of_mem_tail hp) (mem_of_mem_tail hq) hle hnot.1 ▸ rfl)
  · exact hne (hs.eq_of_block (mem_of_mem_tail hq) (mem_of_mem_tail hp) hle hnot.2 ▸ rfl)

theorem nodup : (as.map Allocation.ptr).Nodup := by
  obtain ⟨runs, hr, rfl⟩ := h1.runs
  exact hr.nodup_ptr (h1.spaced hb)

end

end Owns

end

/-! ### Any size -/

/-- The blocks that `sys_allocate_memory` marks: none for zero, or a size that cannot be rounded up.
-/
def numBlocks (size : UInt32) : ℕ := ((size.toInt32 + 1023) / 1024 : Int32).toInt.toNat

/-- The byte `b` is in an allocated block. -/
def Held (h : Heap) (ns : List NodePtr) (b : ℕ) : Prop :=
  ∃ q ∈ ns, InBlock h q b ∧ (h.node q).allocated = true

/-- The byte `b` is in a block that is free in `h` and allocated in `h'`. -/
def Gained (h h' : Heap) (ns : List NodePtr) (b : ℕ) : Prop :=
  ∃ q ∈ ns, InBlock h q b ∧ (h.node q).allocated = false ∧ (h'.node q).allocated = true

section

variable {h h' : Heap} {ns run : List NodePtr} {size p : UInt32} {b : ℕ}

theorem numBlocks_of_fits (h1 : 1 ≤ size.toNat) (h2 : size.toNat + 1023 ≤ 2147483647) :
    numBlocks size = (size.toNat + 1023) / 1024 := by
  have hint : size.toInt32.toInt = size.toNat := by rw [toInt_toInt32, if_pos (by omega)]
  rw [numBlocks, toInt_numBlocksNeeded (by omega) (by omega)]
  omega

theorem numBlocks_of_big (hbig : 2147483647 < size.toNat + 1023) : numBlocks size = 0 :=
  Int.toNat_eq_zero.mpr (numBlocksNeeded_nonpos hbig)

theorem numBlocks_zero : numBlocks 0 = 0 := by decide

theorem numBlocks_le (size : UInt32) : numBlocks size ≤ (size.toNat + 1023) / 1024 := by
  by_cases hbig : 2147483647 < size.toNat + 1023
  · rw [numBlocks_of_big hbig]
    exact Nat.zero_le _
  · by_cases hz : size.toNat = 0
    · rw [UInt32.toNat_inj.mp (hz.trans rfl : size.toNat = (0 : UInt32).toNat)]
      exact Nat.zero_le _
    · rw [numBlocks_of_fits (by omega) (by omega)]

theorem numBlocks_lt (size : UInt32) : numBlocks size ≤ 2097151 := by
  by_cases hbig : 2147483647 < size.toNat + 1023
  · rw [numBlocks_of_big hbig]
    exact Nat.zero_le _
  · have hle := numBlocks_le size
    omega

/-! ### First fit -/

/-- The node of the block that `kmalloc` finds for a size. -/
def blockFor (h : Heap) (ns : List NodePtr) (size : UInt32) : Option NodePtr :=
  if h.totalRegionSize ≤ size then none else firstFit h (numBlocks size) ns.tail

theorem mem_of_firstFit : ∀ {l : List NodePtr}, firstFit h n l = some q → q ∈ l
  | [], hq => (nomatch hq)
  | r :: l, hq => by
      rw [firstFit] at hq
      split at hq
      · cases hq
        exact mem_cons_self
      · exact mem_cons_of_mem r (mem_of_firstFit hq)

theorem addr_blockFor_ne_zero (hs : Spaced h ns) (hq : blockFor h ns size = some q) :
    (h.node q).addr ≠ 0 := by
  rw [blockFor] at hq
  split at hq
  · cases hq
  · exact hs.addr_ne_zero (mem_of_firstFit hq)

/-- **The block that `kmalloc` returns**, in terms of the marks of the nodes. -/
theorem kmalloc_blockFor (ha : h.heapActive = true) (hl : h.memLockAlloc = false)
    (hc : h.Chained ns) (hret : Returns (kmalloc · h size) (h', p))
    : p = (blockFor h ns size).elim 0 fun q => (h.node q).addr := by
  rw [returns_kmalloc_iff ha hl] at hret
  obtain ⟨h'', ⟨fuel, hres⟩, rfl⟩ := hret
  rw [blockFor]
  split
  · next hge =>
    simp only [sysAllocateMemory, UInt32.toUInt32_toInt32, if_pos hge] at hres
    cases hres
    rfl
  · next hlt =>
    have hfit : firstFit { h with memLockAlloc := true } (numBlocks size) ns.tail =
        firstFit h (numBlocks size) ns.tail := firstFit_congr (by exact fun q => rfl) _
    rw [← hfit, numBlocks]
    rcases (sysAllocateMemory_found (h := { h with memLockAlloc := true }) hc
      (by simpa using hlt) hres).2 with ⟨hnone, rfl, -⟩ | ⟨start, rest, hsome, -, rfl, -⟩
    · rw [hnone]
      rfl
    · rw [hsome]
      rfl

/-- **The bytes of the block that `kmalloc` returns.** -/
theorem gained_iff (ha : h.heapActive = true) (hl : h.memLockAlloc = false)
    (hc : h.Chained ns) (hs : Spaced h ns)
    (hret : Returns (kmalloc · h size) (h', p)) (hp : p ≠ 0) :
    Gained h h' ns b ↔ p.toNat ≤ b ∧ b < p.toNat + blockSize * numBlocks size := by
  obtain ⟨start, rest, -, hf, rfl⟩ := kmalloc_found ha hl hc hret hp
  have hsuf : start :: rest <:+ ns := hf.tail.trans (tail_suffix ns)
  rw [numBlocks, ← inBlock_take_iff hs hsuf hf.enough]
  constructor
  · rintro ⟨q, -, hin, hfree, halloc⟩
    refine ⟨q, by_contra fun hq => ?_, hin⟩
    rw [(hf.marked.frame q hq).1, hfree] at halloc
    cases halloc
  · rintro ⟨q, hq, hin⟩
    exact ⟨q, hsuf.subset (mem_of_mem_take hq), hin, hf.free q hq, hf.marked.allocated q hq⟩

theorem Gained.not_held (hg : Gained h h' ns b) (hs : Spaced h ns) : ¬Held h ns b := by
  rintro ⟨r, hr, hin', halloc⟩
  obtain ⟨q, hq, hin, hfree, -⟩ := hg
  have heq : q = r := by
    rcases Nat.le_total (h.node q).addr.toNat (h.node r).addr.toNat with hle | hle
    · exact hs.eq_of_block hq hr hle (Nat.lt_of_le_of_lt hin'.1 hin.2)
    · exact (hs.eq_of_block hr hq hle (Nat.lt_of_le_of_lt hin.1 hin'.2)).symm
  rw [heq, halloc] at hfree
  cases hfree

/-- `kmalloc` frees nothing. -/
theorem Held.kmalloc (hb : Held h ns b) (ha : h.heapActive = true) (hl : h.memLockAlloc = false)
    (hc : h.Chained ns)
    (hret : Returns (KHeap.kmalloc · h size) (h', p)) : Held h' ns b := by
  obtain ⟨hsp, hn, -⟩ := kmalloc_spec ha hl hc hret
  obtain ⟨q, hq, hin, halloc⟩ := hb
  refine ⟨q, hq, ?_, ?_⟩
  · rw [InBlock, hn.addr]
    exact hin
  · rw [hsp q halloc, halloc]

end

end AthenX.KHeap
