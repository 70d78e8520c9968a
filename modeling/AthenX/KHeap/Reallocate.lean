import AthenX.KHeap.Sizes
import AthenX.Lib.Bytes

/-!
# Moving a block

`sys_reallocate_memory` allocates a new run of blocks, copies the old contents there, and releases
the old run. The contents are bytes by address, beside the nodes, which lie in front of the blocks.
The copy disturbs nobody, because the new nodes were free and blocks are apart.
-/

namespace AthenX.KHeap

open Linked Bytes List Option

/-- The heap, and the contents of memory. -/
structure Arena where
  heap : Heap
  bytes : Memory

/-- `sys_reallocate_memory`. `stop` is `memory_region_end`. -/
def sysReallocateMemory (stop : UInt32) (fuel : ℕ) (s : Arena) (addr : UInt32)
    (oldSize newSize : Int32) : Option (Arena × UInt32) :=
  if newSize ≤ oldSize then some (s, addr)
  else if addr = 0 ∨ addr < s.heap.memoryRegion.getD 0 ∨ stop < addr then some (s, 0)
  else
    (sysAllocateMemory fuel s.heap newSize).bind fun (h, newAddr) =>
      if newAddr ≠ 0 then
        let bytes := copy newAddr addr oldSize.toUInt32.toNat s.bytes
        (sysFreeMemory fuel h addr).map fun (h', _) => (⟨h', bytes⟩, newAddr)
      else some (⟨h, s.bytes⟩, addr)

/-- The blocks lie between `memory_region` and `memory_region_end`, below the last address. -/
structure Placed (h : Heap) (ns : List NodePtr) (stop : UInt32) : Prop where
  low : ∀ q ∈ ns, h.memoryRegion.getD 0 ≤ (h.node q).addr
  high : ∀ q ∈ ns, (h.node q).addr ≤ stop
  top : ∀ q ∈ ns, (h.node q).addr.toNat + blockSize ≤ 2 ^ 32

/-- The block of the node belongs to the allocation. -/
def Belongs (h : Heap) (a : Allocation) (q : NodePtr) : Prop :=
  a.ptr.toNat ≤ (h.node q).addr.toNat ∧
    (h.node q).addr.toNat < a.ptr.toNat + blockSize * a.blocks

/-- What a caller of `sys_reallocate_memory` relies on: a block that moves is copied, freed and
allocated anew, else nothing is; and the other allocations stay. -/
structure Moved (s s' : Arena) (ns : List NodePtr) (live : List Allocation) (a : Allocation)
    (oldSize newSize : Int32) (p : UInt32) : Prop where
  contents : p ≠ a.ptr → ∀ k < oldSize.toInt.toNat,
    s'.bytes (p + UInt32.ofNat k) = s.bytes (a.ptr + UInt32.ofNat k)
  freed : p ≠ a.ptr → ∀ q ∈ ns, Belongs s.heap a q → (s'.heap.node q).allocated = false
  allocated : p ≠ a.ptr → ∃ run, IsRun s'.heap ns ⟨p, newSize⟩ run ∧
    ∀ q ∈ run, (s.heap.node q).allocated = false ∧ (s'.heap.node q).allocated = true
  stayed : p = a.ptr → ∀ q, SameMarks s.heap s'.heap q
  others : ∀ b ∈ live, b ≠ a →
    (∀ q ∈ ns, Belongs s.heap b q → s'.heap.node q = s.heap.node q) ∧
    ∀ k < blockSize * b.blocks, s'.bytes (b.ptr + UInt32.ofNat k) = s.bytes (b.ptr + UInt32.ofNat k)

variable {runs : List (Allocation × List NodePtr)} {x : Allocation × List NodePtr} {h' h₀ : Heap}
  {as base : List Allocation} {s : Arena}

section

variable {h : Heap} {ns ra rb : List NodePtr} {a b : Allocation} {stop : UInt32}
  {oldSize newSize : Int32}

/-! ### The bytes of an allocation -/

theorem IsRun.blocks_pos (hr : IsRun h ns a ra) : 0 < a.blocks := by
  obtain ⟨q, hq, -⟩ := map_eq_some_iff.mp hr.ptr
  rw [← hr.length]
  exact length_pos_of_mem (mem_of_mem_head? hq)

theorem toNat_le_blocks (a : Allocation) : a.size.toInt.toNat ≤ blockSize * a.blocks := by
  rw [Allocation.blocks, blocksNeeded, blockSize]
  omega

/-- **The bytes of two allocations** that have no node in common are apart. -/
theorem IsRun.apart (hra : IsRun h ns a ra) (hrb : IsRun h ns b rb) (hs : Spaced h ns)
    (hd : ra.Disjoint rb) : a.ptr.toNat + blockSize * a.blocks ≤ b.ptr.toNat ∨
      b.ptr.toNat + blockSize * b.blocks ≤ a.ptr.toNat := by
  obtain ⟨p, hp, hpa⟩ := map_eq_some_iff.mp hra.ptr
  obtain ⟨q, hq, hqb⟩ := map_eq_some_iff.mp hrb.ptr
  obtain ⟨hpn, -⟩ := (hra.head?_iff hs).mp hp
  obtain ⟨hqn, -⟩ := (hrb.head?_iff hs).mp hq
  by_contra hnot
  rw [not_or, Nat.not_le, Nat.not_le] at hnot
  -- the one that starts later would start at a node of the other
  rcases Nat.le_total a.ptr.toNat b.ptr.toNat with hle | hle
  · refine hd ((hra.mem_iff hs).mpr ⟨hqn, ?_, ?_⟩) (mem_of_mem_head? hq)
    · rwa [hqb]
    · rw [hqb]
      exact hnot.1
  · refine hd (mem_of_mem_head? hp) ((hrb.mem_iff hs).mpr ⟨hpn, ?_, ?_⟩)
    · rwa [hpa]
    · rw [hpa]
      exact hnot.2

theorem IsRun.belongs_iff (hr : IsRun h ns a ra) (hs : Spaced h ns) {q : NodePtr} (hq : q ∈ ns) :
    Belongs h a q ↔ q ∈ ra := by
  rw [hr.mem_iff hs]
  exact (and_iff_right hq).symm

theorem IsRun.exists_node (hr : IsRun h ns a ra) (hs : Spaced h ns) {k : ℕ} (hk : k < a.blocks) :
    ∃ q ∈ ns, (h.node q).addr.toNat = a.ptr.toNat + blockSize * k := by
  have hlen := hr.length
  obtain ⟨i, hi⟩ := hr.exists_index
  obtain ⟨base, hb⟩ := hs
  obtain ⟨first, hfirst, hptr⟩ := map_eq_some_iff.mp hr.ptr
  have hstart := hb (i + 0) first (by rw [hi 0 (by omega), ← List.head?_eq_getElem?, hfirst])
  have hget : ns[i + k]? = some ra[k] :=
    (hi k (by omega)).trans (List.getElem?_eq_getElem (by omega))
  refine ⟨_, mem_of_getElem? hget, ?_⟩
  rw [hb _ _ hget, ← hptr, hstart, Nat.add_zero, Nat.mul_add, Nat.add_assoc]

theorem IsRun.top {n : ℕ} (hr : IsRun h ns a ra) (hs : Spaced h ns)
    (ht : ∀ q ∈ ns, (h.node q).addr.toNat + blockSize ≤ n) :
    a.ptr.toNat + blockSize * a.blocks ≤ n := by
  have hpos := hr.blocks_pos
  -- the last block of the run
  obtain ⟨q, hq, haddr⟩ := hr.exists_node hs (k := a.blocks - 1) (by omega)
  have htop := ht q hq
  rw [haddr] at htop
  rw [blockSize] at htop ⊢
  omega

theorem Runs.disjoint_of_ne (hr : Runs h ns runs) {y : Allocation × List NodePtr} (hx : x ∈ runs)
    (hy : y ∈ runs) (hne : x ≠ y) : x.2.Disjoint y.2 := by
  have hd := pairwise_map.mp hr.disjoint
  have : Std.Symm fun x y : Allocation × List NodePtr => x.2.Disjoint y.2 :=
    ⟨fun _ _ hxy _ hy hx => hxy hx hy⟩
  exact hd.forall hx hy hne

theorem Owns.apart_blocks (ho : Owns h₀ ns h as)
    (hb : Ready h₀ ns base) (ha : a ∈ as) (hb' : b ∈ as) (hne : a.ptr ≠ b.ptr) :
    a.ptr.toNat + blockSize * a.blocks ≤ b.ptr.toNat ∨
      b.ptr.toNat + blockSize * b.blocks ≤ a.ptr.toNat := by
  obtain ⟨runs, hr, rfl⟩ := ho.runs
  obtain ⟨x, hx, rfl⟩ := mem_map.mp ha
  obtain ⟨y, hy, rfl⟩ := mem_map.mp hb'
  have hd := hr.disjoint_of_ne hx hy fun heq => hne (heq ▸ rfl)
  exact (hr.isRun x hx).apart (hr.isRun y hy) (ho.spaced hb) hd

/-- **The bytes of two blocks are apart.** -/
theorem Owns.apart_bytes (ho : Owns h₀ ns h as)
    (hb : Ready h₀ ns base) (ha : a ∈ as) (hb' : b ∈ as) (hne : a.ptr ≠ b.ptr) :
    a.ptr.toNat + a.size.toInt.toNat ≤ b.ptr.toNat ∨
      b.ptr.toNat + b.size.toInt.toNat ≤ a.ptr.toNat := by
  have hsize := toNat_le_blocks a
  have hsize' := toNat_le_blocks b
  rcases ho.apart_blocks hb ha hb' hne with hle | hle
  · exact .inl (by omega)
  · exact .inr (by omega)

/-- **A new block is apart** from bytes that no free block reaches. -/
theorem Owns.apart_of_free {cs : List Allocation} {x n : ℕ}
    (ho : Owns h₀ ns h as) (ho' : Owns h₀ ns h' (as ++ cs)) (hb : Ready h₀ ns base) (ha : a ∈ cs)
    (hfree : ∀ q ∈ ns, (h.node q).allocated = false →
      x + n < (h.node q).addr.toNat ∨ (h.node q).addr.toNat + blockSize ≤ x) :
    x + n < a.ptr.toNat ∨ a.ptr.toNat + a.size.toInt.toNat ≤ x := by
  by_contra hnot
  have hsize := toNat_le_blocks a
  have hmem := mem_append_right as ha
  obtain ⟨runs, hr, hmap⟩ := ho'.runs
  obtain ⟨y, hy, rfl⟩ := mem_map.mp (hmap ▸ hmem)
  have hpos := Nat.mul_pos (show 0 < blockSize by decide) (hr.isRun y hy).blocks_pos
  -- the block with the first byte of both
  have hlt : max x y.1.ptr.toNat - y.1.ptr.toNat < blockSize * y.1.blocks := by omega
  obtain ⟨q, hq, haddr⟩ :=
    (hr.isRun y hy).exists_node (ho'.spaced hb) (Nat.div_lt_of_lt_mul hlt)
  have hmod := Nat.div_add_mod (max x y.1.ptr.toNat - y.1.ptr.toNat) blockSize
  have hrest := Nat.mod_lt (max x y.1.ptr.toNat - y.1.ptr.toNat) (show 0 < blockSize by decide)
  rw [ho'.nodes.addr q] at haddr
  have hidle : (h.node q).allocated = false := by
    by_contra hal
    obtain ⟨b, hbmem, hle, hlt'⟩ := (ho.allocated_iff hb.spaced hq).mp (by simpa using hal)
    have hne : b.ptr ≠ y.1.ptr := by
      have hnd := ho'.nodup hb
      rw [map_append] at hnd
      exact fun heq => disjoint_of_nodup_append hnd (mem_map_of_mem hbmem) (heq ▸ mem_map_of_mem ha)
    have := ho'.apart_blocks hb (mem_append_left cs hbmem) hmem hne
    omega
  have := hfree q hq hidle
  rw [ho.nodes.addr q] at this
  omega

theorem Runs.disjoint_of_free (hr : Runs h ns runs) (hx : x ∈ runs) (hrun : IsRun h ns a ra)
    (hfree : ∀ q ∈ ra, (h.node q).allocated = false) : ra.Disjoint x.2 := by
  intro q hq hqx
  have hns := mem_of_mem_tail (hrun.consecutive.subset hq)
  have hal := (hr.allocated q hns).mpr ⟨x, hx, hqx⟩
  rw [hfree q hq] at hal
  cases hal

/-! ### The call -/

theorem Placed.congr (hp : Placed h ns stop) (hn : SameNodes h h') : Placed h' ns stop where
  low := fun q hq => by rw [hn.memoryRegion, hn.addr]; exact hp.low q hq
  high := fun q hq => by rw [hn.addr]; exact hp.high q hq
  top := fun q hq => by rw [hn.addr]; exact hp.top q hq

theorem sysAllocateMemory_cases {size : Int32} {r : UInt32} {fuel : ℕ}
    (hc : h.Chained ns) (hs : Spaced h ns) (hpos : 1 ≤ size.toInt)
    (hmax : size.toInt + 1023 ≤ 2147483647) (hres : sysAllocateMemory fuel h size = some (h', r)) :
    Spares h h' ∧ ((r = 0 ∧ ∀ q, SameMarks h h' q) ∨
      r ≠ 0 ∧ ∃ run, IsRun h ns ⟨r, size⟩ run ∧ (∀ q ∈ run, (h.node q).allocated = false) ∧
        Marked h h' run ((size + 1023) / 1024) ∧
        ((size + 1023) / 1024 : Int32).toUInt32.toNat = run.length) := by
  obtain ⟨hsp, hcase⟩ := sysAllocateMemory_spec hc hres
  refine ⟨hsp, ?_⟩
  rcases hcase with ⟨hr, -, hm⟩ | ⟨start, rest, hlt, hf, rfl⟩
  · exact .inl ⟨hr, hm⟩
  · obtain ⟨run, hrun, hmark, hfree, hnum⟩ := hf.isRun ⟨hpos, hmax, hlt⟩
    have hne : (h.node start).addr ≠ 0 := hs.addr_ne_zero (hf.tail.subset mem_cons_self)
    exact .inr ⟨hne, run, hrun, hfree, hmark, hnum⟩

theorem moved_self {s' : Arena} {live : List Allocation} (hs : Spaced s.heap ns)
    (hr : Runs s.heap ns runs) (hlive : runs.map Prod.fst = live) (hbytes : s'.bytes = s.bytes)
    (hm : ∀ q, SameMarks s.heap s'.heap q) (hsp : Spares s.heap s'.heap) :
    Moved s s' ns live a oldSize newSize a.ptr where
  contents := fun hne => absurd rfl hne
  freed := fun hne => absurd rfl hne
  allocated := fun hne => absurd rfl hne
  stayed := fun _ => hm
  others := fun b hb _ => by
    rw [← hlive] at hb
    obtain ⟨x, hx, rfl⟩ := mem_map.mp hb
    refine ⟨fun q hq hbel => hsp q ?_, fun k _ => by rw [hbytes]⟩
    exact (hr.allocated q hq).mpr ⟨x, hx, ((hr.isRun x hx).belongs_iff hs hq).mp hbel⟩

theorem moved_of_copied {h1 h2 : Heap} {p : UInt32} {num : Int32} {run : List NodePtr}
    (hs : Spaced s.heap ns) (hplaced : Placed s.heap ns stop) (hr : Runs s.heap ns runs)
    (hx : x ∈ runs) (hsize : oldSize.toInt ≤ x.1.size.toInt) (hlt : oldSize.toInt < newSize.toInt)
    (hrun : IsRun s.heap ns ⟨p, newSize⟩ run) (hfree : ∀ q ∈ run, (s.heap.node q).allocated = false)
    (hmark : Marked s.heap h1 run num) (hsp : Spares s.heap h1) (hcl : Cleared h1 h2 x.2) :
    Moved s ⟨h2, copy p x.1.ptr oldSize.toInt.toNat s.bytes⟩ ns (runs.map Prod.fst) x.1
      oldSize newSize p := by
  have hrunx := hr.isRun x hx
  have hdis : ∀ {y}, y ∈ runs → run.Disjoint y.2 := fun hy => hr.disjoint_of_free hy hrun hfree
  have hap := hrun.apart hrunx hs (hdis hx)
  -- the bytes that are copied are bytes of both runs
  have hnew := toNat_le_blocks ⟨p, newSize⟩
  have hold := toNat_le_blocks x.1
  have htop := hrun.top hs hplaced.top
  have htopx := hrunx.top hs hplaced.top
  have hne : p ≠ x.1.ptr := by
    rintro rfl
    have hpos := hrun.blocks_pos
    have hposx := hrunx.blocks_pos
    rw [blockSize] at hap
    dsimp only at hap hpos
    omega
  dsimp only at hap hnew htop
  refine ⟨fun _ k hk => ?_, fun _ q hq hbel => ?_, fun _ => ⟨run, ?_, fun q hq => ⟨hfree q hq, ?_⟩⟩,
    fun heq => absurd heq hne, fun b hb hba => ?_⟩
  · exact copy_apply (by omega) (by omega) (by omega) hk
  · exact hcl.allocated q ((hrunx.belongs_iff hs hq).mp hbel)
  · exact (hmark.nodes.trans hcl.nodes).isRun hrun
  · rw [hcl.frame q (hdis hx hq)]
    exact hmark.allocated q hq
  · obtain ⟨y, hy, rfl⟩ := mem_map.mp hb
    have hruny := hr.isRun y hy
    refine ⟨fun q hq hbel => ?_, fun k hk => ?_⟩
    · have hqy := (hruny.belongs_iff hs hq).mp hbel
      have hyx := hr.disjoint_of_ne hy hx fun heq => hba (congrArg Prod.fst heq)
      rw [hcl.frame q (hyx hqy)]
      exact hsp q ((hr.allocated q hq).mpr ⟨y, hy, hqy⟩)
    · have hapy := hrun.apart hruny hs (hdis hy)
      have htopy := hruny.top hs hplaced.top
      dsimp only at hapy
      refine write_of_lt (by omega) ?_
      rw [toNat_add_ofNat (by omega)]
      omega

/-- **A block that is moved keeps its contents, and the others stay**, in every heap of a history.
-/
theorem moved_of_usage {s s' : Arena} {live : List Allocation} {p : UInt32} (hi : Initial h₀ ns)
    (hp : Placed h₀ ns stop) (hu : Usage h₀ s.heap live) (ha : a ∈ live)
    (hold : 1 ≤ oldSize.toInt) (hsize : oldSize.toInt ≤ a.size.toInt) (hnew : 1 ≤ newSize.toInt)
    (hmax : newSize.toInt + 1023 ≤ 2147483647)
    (hret : Returns (sysReallocateMemory stop · s a.ptr oldSize newSize) (s', p)) :
    Moved s s' ns live a oldSize newSize p := by
  obtain ⟨runs, hr, hlive⟩ := hu.exists_recorded hi
  have hc := hr.chain hi
  have hs := hr.spaced hi
  have hplaced := hp.congr hr.nodes
  rw [← hlive] at ha
  obtain ⟨x, hx, rfl⟩ := mem_map.mp ha
  have hrun := hr.marks.isRun x hx
  obtain ⟨qa, hqa, hptr⟩ := map_eq_some_iff.mp hrun.ptr
  obtain ⟨hqn, -⟩ := (hrun.head?_iff hs).mp hqa
  obtain ⟨fuel, hres⟩ := hret
  simp only [sysReallocateMemory] at hres
  split at hres
  · cases hres
    exact moved_self hs hr.marks hlive rfl (fun q => ⟨rfl, rfl, rfl⟩) fun _ _ => rfl
  next hlt =>
  have hlt' : oldSize.toInt < newSize.toInt := Int32.lt_iff_toInt_lt.mp (Int32.not_le.mp hlt)
  -- a live pointer is inside the region
  have hinside : ¬(x.1.ptr = 0 ∨ x.1.ptr < s.heap.memoryRegion.getD 0 ∨ stop < x.1.ptr) := by
    rw [← hptr]
    rintro (hz | hlow | hhigh)
    · exact hs.addr_ne_zero (hrun.consecutive.subset (mem_of_mem_head? hqa)) hz
    · exact absurd (hplaced.low qa hqn) (UInt32.not_le.mpr hlow)
    · exact absurd (hplaced.high qa hqn) (UInt32.not_le.mpr hhigh)
  rw [if_neg hinside] at hres
  obtain ⟨⟨h1, p1⟩, halloc, hres⟩ := bind_eq_some_iff.mp hres
  obtain ⟨hsp, hcase⟩ := sysAllocateMemory_cases hc hs hnew hmax halloc
  rcases hcase with ⟨rfl, hm⟩ | ⟨hne, run, hnewRun, hfree, hmark, hnum⟩
  · rw [if_neg (not_not.mpr rfl)] at hres
    cases hres
    exact moved_self hs hr.marks hlive rfl hm hsp
  · rw [if_pos hne] at hres
    obtain ⟨⟨h2, r⟩, hfree2, he⟩ := map_eq_some_iff.mp hres
    cases he
    have hmarks := hr.marks.mark hmark hnewRun hnum hfree
    have hc1 := hmark.nodes.chained hc
    -- the old pointer is still live, so its run is cleared
    obtain ⟨h2', hret', hcl⟩ := sysFreeMemory_run hc1 (hmark.nodes.spaced hs) hmarks
      (mem_append_left _ hx)
    cases sysFreeMemory_unique ⟨_, hfree2⟩ hret'
    rw [toNat_toUInt32_of_nonneg (by omega), ← hlive]
    exact moved_of_copied hs hplaced hr.marks hx hsize hlt' hnewRun hfree hmark hsp hcl

end

theorem placed_rowHeap : Placed rowHeap rowNodes 0x2000 where
  low := by intro q hq; fin_cases hq <;> decide
  high := by intro q hq; fin_cases hq <;> decide
  top := by intro q hq; fin_cases hq <;> decide

/-- Two blocks of a small heap, with bytes that are the last ones of their addresses. -/
def twoBlocks : Arena := ⟨busyHeap [100, 50], fun a => a.toUInt8⟩

/-- The first block is moved behind the second. -/
theorem moved_of_usage_twoBlocks : ∃ s',
    Returns (sysReallocateMemory 0x2000 · twoBlocks 0x1400 100 200) (s', 0x1C00) ∧
      Moved twoBlocks s' rowNodes [⟨0x1400, 100⟩, ⟨0x1800, 50⟩] ⟨0x1400, 100⟩
        100 200 0x1C00 := by
  have h1 : Usage rowHeap (busyHeap [100]) [⟨0x1400, 100⟩] :=
    Usage.start.live ⟨5, rfl⟩ (by decide) (by decide)
  have h2 : Usage rowHeap (busyHeap [100, 50]) [⟨0x1400, 100⟩, ⟨0x1800, 50⟩] :=
    h1.live ⟨5, rfl⟩ (by decide) (by decide)
  have hret : Returns (sysReallocateMemory 0x2000 · twoBlocks 0x1400 100 200)
      (_, 0x1C00) := ⟨5, rfl⟩
  exact ⟨_, hret, moved_of_usage initial_rowHeap placed_rowHeap h2 (by decide)
    (by decide) (by decide) (by decide) (by decide) hret⟩

end AthenX.KHeap
