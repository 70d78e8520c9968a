import AthenX.KHeap.Invariant

/-!
# When `kmalloc` hands out enough memory

`kmalloc` passes its `size_t` on as an `int` that is compared as unsigned, rounded up with a sum
that can wrap, and used as a signed number of blocks. From `2 ^ 31 - 1023` bytes on that is not
positive: the search takes the first free node, marks nothing, and returns its block.
-/

namespace AthenX.KHeap

open Linked List

/-! ### States `kmalloc` is called in -/

/-- A heap before the first call, with its list in order. -/
structure Started (h : Heap) (ns : List NodePtr) : Prop extends Initial h ns where
  active : h.heapActive = true
  unlocked : h.memLockAlloc = false

/-- The heaps that any calls of `kmalloc` and `kfree` lead to. -/
inductive KReachable (h₀ : Heap) : Heap → Prop
  | start : KReachable h₀ h₀
  | kmalloc {h h' : Heap} {size p : UInt32} : KReachable h₀ h →
      Returns (kmalloc · h size) (h', p) → KReachable h₀ h'
  | kfree {h h' : Heap} {ptr : UInt32} : KReachable h₀ h →
      Returns (kfree · h ptr) h' → KReachable h₀ h'

/-- The block of `size` bytes at `p` lies in the blocks of the nodes `run`. -/
def Covers (h : Heap) (run : List NodePtr) (p : UInt32) (size : ℕ) : Prop :=
  ∀ k < size, ∃ q ∈ run, (h.node q).addr.toNat ≤ p.toNat + k ∧
    p.toNat + k < (h.node q).addr.toNat + (h.node q).size.toNat

/-- The `n` bytes at `p` are blocks of consecutive nodes, free in `h` and allocated in `h'`. -/
def Fresh (h h' : Heap) (ns : List NodePtr) (p : UInt32) (n : ℕ) : Prop :=
  ∃ run, run <:+: ns ∧ Covers h run p n ∧
    ∀ q ∈ run, (h.node q).allocated = false ∧ (h'.node q).allocated = true

/-- What a caller of `kmalloc(size)` relies on: null, or `size` bytes that were free. -/
def Delivers (h : Heap) (ns : List NodePtr) (size : UInt32) : Prop :=
  ∀ h' p, Returns (kmalloc · h size) (h', p) → p ≠ 0 → Fresh h h' ns p size.toNat

/-! ### The frame of the two calls -/

theorem sameNodes_markFree : ∀ (k : ℕ) (cur : Option NodePtr) (h h' : Heap),
    markFree k cur h = some h' → SameNodes h h' := by
  intro k
  induction k with
  | zero =>
    intro cur h h' hres
    simp only [markFree, Option.some.injEq] at hres
    exact hres ▸ SameNodes.refl h
  | succ k ih =>
    intro cur h h' hres
    cases cur with
    | none => simp [markFree] at hres
    | some p =>
      refine SameNodes.trans ?_ (ih _ _ _ hres)
      exact sameNodes_modify h p fun nd => ⟨rfl, rfl, rfl⟩

variable {fuel : ℕ} {h h' : Heap} {p r size : UInt32} {ns : List NodePtr}

theorem sameNodes_sysFreeMemory {addr : UInt32}
    (hres : sysFreeMemory fuel h addr = some (h', r)) : SameNodes h h' := by
  simp only [sysFreeMemory] at hres
  split at hres
  · simp at hres
  · cases hres
    exact SameNodes.refl _
  · split at hres
    · obtain ⟨h'', hm, he⟩ := Option.map_eq_some_iff.mp hres
      cases he
      exact sameNodes_markFree _ _ _ _ hm
    · cases hres
      exact SameNodes.refl _

theorem sameNodes_sysAllocateMemory {size : Int32} (hc : h.Chained ns)
    (hres : sysAllocateMemory fuel h size = some (h', r)) : SameNodes h h' := by
  rcases (sysAllocateMemory_spec hc hres).2 with ⟨-, hn, -⟩ | ⟨start, rest, -, hf, -⟩
  · exact hn
  · exact hf.marked.nodes

/-- `kmalloc` in a free heap is `sys_allocate_memory`, which does not look at the lock. -/
theorem returns_kmalloc_iff (ha : h.heapActive = true) (hl : h.memLockAlloc = false) :
    Returns (kmalloc · h size) (h', p) ↔
      ∃ h'', Returns (sysAllocateMemory · { h with memLockAlloc := true }
        size.toInt32) (h'', p) ∧ { h'' with memLockAlloc := false } = h' := by
  simp only [Returns, kmalloc, ha, hl, Bool.true_eq_false, Bool.false_eq_true, if_false,
    Option.map_eq_some_iff, Prod.exists, Prod.mk.injEq]
  constructor
  · rintro ⟨fuel, h'', p', hres, he, rfl⟩; exact ⟨h'', ⟨fuel, hres⟩, he⟩
  · rintro ⟨h'', ⟨fuel, hres⟩, he⟩; exact ⟨fuel, h'', p, hres, he, rfl⟩

/-- **What `kmalloc` does**: it writes to no allocated node, and it returns null and marks nothing,
or it marks a run of free nodes and returns the first block of the run. -/
theorem kmalloc_spec (ha : h.heapActive = true) (hl : h.memLockAlloc = false) (hc : h.Chained ns)
    (hret : Returns (kmalloc · h size) (h', p)) :
    Spares h h' ∧ SameNodes h h' ∧
    ((p = 0 ∧ ∀ q, SameMarks h h' q) ∨
      ∃ start rest, size < h.totalRegionSize ∧
        Found h h' ns.tail ((size.toInt32 + 1023) / 1024) start rest ∧
        p = (h.node start).addr) := by
  rw [returns_kmalloc_iff ha hl] at hret
  obtain ⟨h'', ⟨fuel, hres⟩, rfl⟩ := hret
  obtain ⟨hsp, hcase⟩ := sysAllocateMemory_spec (h := { h with memLockAlloc := true }) hc hres
  have hn := sameNodes_sysAllocateMemory (h := { h with memLockAlloc := true }) hc hres
  have hnodes : SameNodes h { h'' with memLockAlloc := false } := ⟨hn.memoryRegion,
    hn.totalRegionSize, hn.heapActive, hl.symm, hn.memLockFree, hn.addr, hn.size, hn.next⟩
  refine ⟨hsp, hnodes, hcase.imp (fun hnull => ⟨hnull.1, hnull.2.2⟩) ?_⟩
  rintro ⟨start, rest, hlt, ⟨htail, hstart, henough, hfree, hm⟩, hp⟩
  exact ⟨start, rest, by simpa using hlt, ⟨htail, hstart, henough, hfree,
    ⟨hnodes, hm.frame, hm.allocated, hm.used, hm.first⟩⟩, hp⟩

theorem sameNodes_of_kReachable {h0 : Heap} (hs : Started h0 ns)
    (hr : KReachable h0 h) : SameNodes { h0 with memLockFree := h.memLockFree } h := by
  induction hr with
  | start => exact SameNodes.refl _
  | @kmalloc h h' size p _ hres ih =>
    have hn := (kmalloc_spec (ih.heapActive.trans hs.active) (ih.memLockAlloc.trans hs.unlocked)
      (ih.chained hs.chain) hres).2.1
    rw [hn.memLockFree]
    exact ih.trans hn
  | @kfree h h' ptr _ hres ih =>
    obtain ⟨fuel, hres⟩ := hres
    simp only [kfree] at hres
    split at hres
    · simp at hres
    · obtain ⟨⟨h'', r⟩, hfree, rfl⟩ := Option.map_eq_some_iff.mp hres
      have hn := sameNodes_sysFreeMemory hfree
      exact ⟨hn.memoryRegion.trans ih.memoryRegion, hn.totalRegionSize.trans ih.totalRegionSize,
        hn.heapActive.trans ih.heapActive, hn.memLockAlloc.trans ih.memLockAlloc, rfl,
        fun q => (hn.addr q).trans (ih.addr q), fun q => (hn.size q).trans (ih.size q),
        fun q => (hn.next q).trans (ih.next q)⟩

/-! ### Sizes with a positive number of blocks -/

theorem toInt_toInt32 (size : UInt32) :
    size.toInt32.toInt =
      if size.toNat < 2147483648 then (size.toNat : ℤ) else size.toNat - 4294967296 := by
  have hlt := size.toNat_lt
  rw [show size.toInt32.toInt = (size.toNat : ℤ).bmod (2 ^ 32) by
    rw [← Int32.toInt_toBitVec, BitVec.toInt_eq_toNat_bmod]; rfl]
  rw [Int.bmod_def]
  split <;> split <;> omega

/-- **The sizes whose number of blocks is not positive**: the `int` sum wraps, or is negative. -/
theorem numBlocksNeeded_nonpos (hbig : 2147483647 < size.toNat + 1023) :
    ((size.toInt32 + 1023) / 1024 : Int32).toInt ≤ 0 := by
  have hlt := size.toNat_lt
  have hs := toInt_toInt32 size
  have hadd : (size.toInt32 + 1023 : Int32).toInt ≤ 1023 - 1 := by
    rw [Int32.toInt_add, hs, show (1023 : Int32).toInt = 1023 by decide, Int.bmod_def]
    split <;> split <;> omega
  have hlow : -2147483648 ≤ (size.toInt32 + 1023 : Int32).toInt := by
    have := Int32.le_toInt (size.toInt32 + 1023)
    simpa using this
  rw [Int32.toInt_div, show (1024 : Int32).toInt = 1024 by decide]
  have hdiv : ((size.toInt32 + 1023 : Int32).toInt.tdiv 1024) ≤ 0 ∧
      -2147483648 ≤ ((size.toInt32 + 1023 : Int32).toInt.tdiv 1024) := by
    set x := (size.toInt32 + 1023 : Int32).toInt
    rcases Int.le_total 0 x with hx | hx
    · rw [Int.tdiv_eq_ediv_of_nonneg hx]; omega
    · rw [← Int.neg_neg x, Int.neg_tdiv, Int.tdiv_eq_ediv_of_nonneg (by omega)]; omega
  rw [Int.bmod_eq_of_le (by omega) (by omega)]
  exact hdiv.1

/-! ### Too large a size -/

theorem firstFit_zero_ne_none : ∀ {l : List NodePtr},
    (∃ q ∈ l, (h.node q).allocated = false) → firstFit h 0 l ≠ none := by
  intro l
  induction l with
  | nil => rintro ⟨q, hq, -⟩; cases hq
  | cons a l ih =>
    rintro ⟨q, hq, hfree⟩
    rw [firstFit]
    split
    · exact Option.some_ne_none a
    · next hnot =>
      refine ih ⟨q, (mem_cons.mp hq).resolve_left ?_, hfree⟩
      rintro rfl
      exact hnot ⟨Nat.zero_le _, by simpa using hfree⟩

/-- A search for no node takes the first free one, and marks nothing. -/
theorem findFreeZone_of_nonpos (size : UInt32) {num : Int32} (hnum : num.toInt ≤ 0)
    {l : List NodePtr} {cur : Option NodePtr} (hc : Chain h.next cur l)
    (hfree : ∃ q ∈ l, (h.node q).allocated = false) :
    ∃ start ∈ l, (h.node start).allocated = false ∧ ∃ h',
      Returns (findFreeZone · h cur size num) (h', (h.node start).addr) ∧
      SameNodes h h' ∧ ∀ q, SameMarks h h' q := by
  have hzero : num.toInt.toNat = 0 := Int.toNat_eq_zero.mpr hnum
  have hfit : firstFit h num.toInt.toNat l ≠ none := by
    rw [hzero]
    exact firstFit_zero_ne_none hfree
  obtain ⟨⟨h', r⟩, hres⟩ := (findFreeZone_ends size hc).2 (Nat.lt_succ_self l.length) (.inl hfit)
  rcases (findFreeZone_found hc hres).2 with ⟨hnone, -⟩ | ⟨start, rest, -, hf, hr, -⟩
  · exact absurd hnone hfit
  · refine ⟨start, hf.tail.subset mem_cons_self, hf.start_free, h', ⟨_, hr ▸ hres⟩,
      hf.marked.nodes, fun q => hf.marked.frame q ?_⟩
    rw [hzero]
    exact not_mem_nil

theorem kmalloc_unmarked (ha : h.heapActive = true) (hl : h.memLockAlloc = false)
    (hc : h.Chained ns) (hbig : 2147483647 < size.toNat + 1023)
    (hlt : size < h.totalRegionSize) (hfree : ∃ q ∈ ns.tail, (h.node q).allocated = false) :
    ∃ start ∈ ns.tail, (h.node start).allocated = false ∧ ∃ h',
      Returns (kmalloc · h size) (h', (h.node start).addr) ∧
        ∀ q, (h'.node q).allocated = (h.node q).allocated := by
  cases hreg : h.memoryRegion with
  | none =>
    rw [Heap.Chained, hreg] at hc
    obtain ⟨q, hq, -⟩ := hfree
    rw [hc.eq_nil] at hq
    simp at hq
  | some first =>
    rw [Heap.Chained, hreg] at hc
    obtain ⟨l, rfl, hc'⟩ := hc.eq_cons
    obtain ⟨start, hstart, hsf, h', ⟨fuel, hf⟩, -, hm⟩ :=
      findFreeZone_of_nonpos size (numBlocksNeeded_nonpos hbig)
        (h := { h with memLockAlloc := true }) hc' hfree
    refine ⟨start, hstart, hsf, { h' with memLockAlloc := false }, ?_, fun q => (hm q).1⟩
    rw [returns_kmalloc_iff ha hl]
    refine ⟨h', ⟨fuel, ?_⟩, rfl⟩
    simp only [sysAllocateMemory, UInt32.toUInt32_toInt32, if_neg (UInt32.not_le.mpr hlt)]
    split
    · next hnone => exact absurd (hnone.symm.trans hreg) (by simp)
    · next first' hsome =>
      cases hsome.symm.trans hreg
      exact hf

/-! ### Sizes that can be rounded up -/

/-- The byte `b` is in the block of the node `q`. -/
def InBlock (h : Heap) (q : NodePtr) (b : ℕ) : Prop :=
  (h.node q).addr.toNat ≤ b ∧ b < (h.node q).addr.toNat + blockSize

theorem inBlock_take_iff {start : NodePtr} {rest : List NodePtr} {b n : ℕ} (hs : Spaced h ns)
    (hl : start :: rest <:+ ns) (hn : n ≤ (start :: rest).length) :
    (∃ q ∈ (start :: rest).take n, InBlock h q b) ↔
      (h.node start).addr.toNat ≤ b ∧ b < (h.node start).addr.toNat + blockSize * n := by
  obtain ⟨base, hb⟩ := hs
  obtain ⟨pre, rfl⟩ := hl
  have haddr : ∀ k q, (start :: rest)[k]? = some q →
      (h.node q).addr.toNat = (h.node start).addr.toNat + blockSize * k := by
    intro k q hq
    have hstart := hb pre.length start (by simp)
    have hnode := hb (pre.length + k) q (by
      rw [List.getElem?_append_right (Nat.le_add_right _ _), Nat.add_sub_cancel_left]; exact hq)
    rw [hnode, hstart, Nat.mul_add, Nat.add_assoc]
  simp only [InBlock, blockSize] at haddr ⊢
  constructor
  · rintro ⟨q, hq, hle, hlt⟩
    obtain ⟨k, hk⟩ := mem_iff_getElem?.mp hq
    rw [List.getElem?_take] at hk
    split at hk
    · rw [haddr k q hk] at hle hlt
      omega
    · cases hk
  · rintro ⟨hle, hlt⟩
    obtain ⟨k, hk⟩ : ∃ k, k = (b - (h.node start).addr.toNat) / 1024 := ⟨_, rfl⟩
    have hkn : k < n := by omega
    obtain ⟨q, hq⟩ : ∃ q, (start :: rest)[k]? = some q :=
      ⟨_, List.getElem?_eq_getElem (Nat.lt_of_lt_of_le hkn hn)⟩
    have hmem : q ∈ (start :: rest).take n :=
      mem_of_getElem? (by rw [List.getElem?_take_of_lt hkn]; exact hq)
    refine ⟨q, hmem, ?_⟩
    rw [haddr k q hq]
    omega

theorem covers_take {l : List NodePtr} {start : NodePtr} {n size : ℕ}
    (hs : Spaced h ns) (hsz : ∀ p ∈ ns, (h.node p).size.toNat = blockSize)
    (hl : start :: l <:+ ns) (hn : n ≤ (start :: l).length) (hsize : size ≤ blockSize * n) :
    Covers h ((start :: l).take n) (h.node start).addr size := by
  intro k hk
  obtain ⟨q, hq, hle, hlt⟩ := (inBlock_take_iff hs hl hn).mpr
    ⟨Nat.le_add_right _ k, Nat.add_lt_add_left (lt_of_lt_of_le hk hsize) _⟩
  rw [← hsz q (hl.subset (mem_of_mem_take hq))] at hlt
  exact ⟨q, hq, hle, hlt⟩

section

variable (ha : h.heapActive = true) (hl : h.memLockAlloc = false) (hc : h.Chained ns)

include ha hl hc

theorem kmalloc_found (hret : Returns (kmalloc · h size) (h', p)) (hp : p ≠ 0) :
    ∃ start rest, size < h.totalRegionSize ∧
      Found h h' ns.tail ((size.toInt32 + 1023) / 1024) start rest ∧ p = (h.node start).addr :=
  (kmalloc_spec ha hl hc hret).2.2.resolve_left fun hnull => hp hnull.1

variable (hs : Spaced h ns) (hsz : ∀ p ∈ ns, (h.node p).size.toNat = blockSize)

include hs hsz

theorem delivers_of_le (hpos : 1 ≤ size.toNat) (hle : size.toNat + 1023 ≤ 2147483647) :
    Delivers h ns size := by
  intro h' p hret hp
  have hint : size.toInt32.toInt = size.toNat := by rw [toInt_toInt32, if_pos (by omega)]
  have hone : 1 ≤ size.toInt32.toInt := by omega
  have hmax : size.toInt32.toInt + 1023 ≤ 2147483647 := by omega
  have hnum := toNat_numBlocksNeeded hone hmax
  obtain ⟨start, rest, -, hf, rfl⟩ := kmalloc_found ha hl hc hret hp
  have hsuf : start :: rest <:+ ns := hf.tail.trans (tail_suffix ns)
  refine ⟨_, (List.take_prefix _ _).isInfix.trans hsuf.isInfix, ?_,
    fun q hq => ⟨hf.free q hq, hf.marked.allocated q hq⟩⟩
  refine covers_take hs hsz hsuf hf.enough ?_
  rw [hnum, blocksNeeded, hint]
  unfold blockSize
  omega

/-! ### The exact condition -/

theorem not_delivers (hbig : 2147483647 < size.toNat + 1023) (hlt : size < h.totalRegionSize)
    (hfree : ∃ q ∈ ns.tail, (h.node q).allocated = false) : ¬Delivers h ns size := by
  intro hd
  obtain ⟨start, hstart, hsf, h', hret, hmarks⟩ := kmalloc_unmarked ha hl hc hbig hlt hfree
  obtain ⟨run, hrun, hcov, hmark⟩ := hd h' _ hret (hs.addr_ne_zero hstart)
  -- the node of the first byte is the free node that was returned
  obtain ⟨q, hq, hle, hlt'⟩ := hcov 0 (by omega)
  have hmem : q ∈ ns := hrun.subset hq
  have hsame : q = start := by
    rw [hsz q hmem] at hlt'
    exact hs.eq_of_block hmem (mem_of_mem_tail hstart) (by omega) (by omega)
  subst hsame
  have := (hmark q hq).2
  rw [hmarks, hsf] at this
  exact Bool.false_ne_true this

end

/-- **When `kmalloc` delivers**: exactly when the size can be rounded up in an `int`, or is refused
as too large, or no node behind the first is free. -/
theorem kmalloc_delivers_iff {h₀ h : Heap} {ns : List NodePtr} (hs : Started h₀ ns)
    (hr : KReachable h₀ h) {size : UInt32} (hpos : 1 ≤ size.toNat) :
    Delivers h ns size ↔
      size.toNat + 1023 ≤ 2147483647 ∨ h.totalRegionSize ≤ size ∨
        ∀ q ∈ ns.tail, (h.node q).allocated = true := by
  have hn := sameNodes_of_kReachable hs hr
  have ha : h.heapActive = true := hn.heapActive.trans hs.active
  have hl : h.memLockAlloc = false := hn.memLockAlloc.trans hs.unlocked
  have hc : h.Chained ns := hn.chained hs.chain
  have hsp : Spaced h ns := hn.spaced hs.spaced
  have hsz : ∀ p ∈ ns, (h.node p).size.toNat = blockSize :=
    fun p hp => by rw [hn.size]; exact hs.size p hp
  constructor
  · intro hd
    by_contra hcon
    simp only [not_or, not_forall, Bool.not_eq_true, not_le, UInt32.not_le] at hcon
    obtain ⟨hbig, hlt, q, hq, hfree⟩ := hcon
    exact not_delivers ha hl hc hsp hsz hbig hlt ⟨q, hq, hfree⟩ hd
  · rintro (hle | hge | hall)
    · exact delivers_of_le ha hl hc hsp hsz hpos hle
    · intro h' p hret hp
      obtain ⟨-, -, hlt, -⟩ := kmalloc_found ha hl hc hret hp
      exact absurd hge (UInt32.not_le.mpr hlt)
    · intro h' p hret hp
      obtain ⟨start, rest, -, hf, -⟩ := kmalloc_found ha hl hc hret hp
      have := hall start (hf.tail.subset mem_cons_self)
      rw [hf.start_free] at this
      exact absurd this Bool.false_ne_true

theorem started_sampleHeap (total : UInt32) : Started (sampleHeap total) [0x100, 0x118, 0x130] where
  toInitial := initial_sampleHeap total
  active := rfl
  unlocked := rfl

/-- In a region of 3 GB, 100 bytes are delivered. -/
theorem kmalloc_delivers_iff_sampleHeap :
    KReachable (sampleHeap 0xC0000000) (sampleHeap 0xC0000000) ∧
      Delivers (sampleHeap 0xC0000000) [0x100, 0x118, 0x130] 100 :=
  ⟨.start, (kmalloc_delivers_iff (started_sampleHeap _) .start (by decide)).mpr (.inl (by decide))⟩

/-- In a region of 3 GB, `0x7FFFFFFF` bytes are not delivered: the sum is negative. -/
theorem kmalloc_not_delivers_sampleHeap :
    Started (sampleHeap 0xC0000000) [0x100, 0x118, 0x130] ∧
      KReachable (sampleHeap 0xC0000000) (sampleHeap 0xC0000000) ∧
      ¬Delivers (sampleHeap 0xC0000000) [0x100, 0x118, 0x130] 0x7FFFFFFF := by
  have hs := started_sampleHeap 0xC0000000
  refine ⟨hs, .start, ?_⟩
  exact not_delivers rfl rfl hs.chain hs.spaced hs.size (by decide) (by decide)
    ⟨0x118, by decide, rfl⟩

end AthenX.KHeap
