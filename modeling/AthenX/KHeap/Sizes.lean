import AthenX.KHeap.Release

/-!
# The size of a live block

`get_memory_size` returns the size stored in an allocated node with the given address. The search
stores the size it is asked for in every free node it tries, but none of them is allocated. For zero
bytes, or a size that cannot be rounded up in an `int`, the pointer that is returned has no block:
nothing is marked, and the pointer has no size.
-/

namespace AthenX.KHeap

open Linked List Option

/-- Histories of allocations of any size and releases of live pointers. A pointer for no block at
all is not null and not live: the next allocation may return it again. -/
inductive Usage (h₀ : Heap) : Heap → List Allocation → Prop
  | start : Usage h₀ h₀ []
  | allocate {h h' : Heap} {live : List Allocation} {size : Int32} {p : UInt32} :
      Usage h₀ h live → Returns (sysAllocateMemory · h size) (h', p) →
      Usage h₀ h' (if p = 0 ∨ numBlocks size.toUInt32 = 0 then live else live ++ [⟨p, size⟩])
  | free {h h' : Heap} {live : List Allocation} {a : Allocation} {r : UInt32} :
      Usage h₀ h live → a ∈ live → Returns (sysFreeMemory · h a.ptr) (h', r) →
      Usage h₀ h' (live.erase a)

/-- The heap `h`, with the runs of its allocations. The first node of a run holds the size asked
for, and that of the list what it held before. -/
structure Recorded (h₀ h : Heap) (ns : List NodePtr) (runs : List (Allocation × List NodePtr)) :
    Prop where
  nodes : SameNodes h₀ h
  marks : Runs h ns runs
  requested : ∀ x ∈ runs, ∀ q, x.2.head? = some q →
    (h.node q).totalRequestedMemory = x.1.size.toUInt32
  count : ∀ p, ns.head? = some p → (h.node p).numBlockUsed = (h₀.node p).numBlockUsed

section

variable {h₀ h h' : Heap} {ns : List NodePtr} {runs : List (Allocation × List NodePtr)}
  {size : Int32} {p : UInt32}

theorem Usage.live {live : List Allocation} (hu : Usage h₀ h live)
    (hret : Returns (sysAllocateMemory · h size) (h', p)) (hp : p ≠ 0)
    (hpos : numBlocks size.toUInt32 ≠ 0) : Usage h₀ h' (live ++ [⟨p, size⟩]) := by
  have h := hu.allocate hret
  rwa [if_neg (not_or.mpr ⟨hp, hpos⟩)] at h

theorem Usage.nothing {live : List Allocation} (hu : Usage h₀ h live)
    (hret : Returns (sysAllocateMemory · h size) (h', p))
    (hp : p = 0 ∨ numBlocks size.toUInt32 = 0) : Usage h₀ h' live := by
  have h := hu.allocate hret
  rwa [if_pos hp] at h

/-! ### The size that an allocation stores -/

theorem sysAllocateMemory_requested {fuel : ℕ} (hc : h.Chained ns)
    (hs : Spaced h ns) (hres : sysAllocateMemory fuel h size = some (h', p)) (hp : p ≠ 0)
    {q : NodePtr} (hq : q ∈ ns) (haddr : (h.node q).addr = p) :
    (h'.node q).totalRequestedMemory = size.toUInt32 := by
  rcases UInt32.lt_or_le size.toUInt32 h.totalRegionSize with hlt | hle
  · rcases (sysAllocateMemory_found hc hlt hres).2 with ⟨-, h0, -⟩ | ⟨start, rest, -, hf, hr, hreq⟩
    · exact absurd h0 hp
    -- the block that is returned starts at one node only
    have hstart : start ∈ ns := mem_of_mem_tail (hf.tail.subset mem_cons_self)
    rw [hs.addr_inj hq hstart (haddr.trans hr), hreq]
  · rw [sysAllocateMemory, if_pos hle] at hres
    exact absurd (Prod.mk.inj (some.inj hres)).2.symm hp

/-! ### Sizes that make a pointer live -/

theorem toUInt32_toInt32 (size : Int32) : size.toUInt32.toInt32 = size := by simp

theorem validSize_of_numBlocks (hlt : size.toUInt32 < h.totalRegionSize)
    (hpos : numBlocks size.toUInt32 ≠ 0) : ValidSize h size := by
  have hint := toInt_toInt32 size.toUInt32
  rw [toUInt32_toInt32] at hint
  have hbig : ¬2147483647 < size.toUInt32.toNat + 1023 := fun hc => hpos (numBlocks_of_big hc)
  have hzero : size.toUInt32.toNat ≠ 0 := by
    intro hz
    refine hpos ?_
    rw [UInt32.toNat_inj.mp (hz.trans rfl : size.toUInt32.toNat = (0 : UInt32).toNat)]
    exact numBlocks_zero
  exact ⟨by omega, by omega, hlt⟩

/-! ### One call -/

namespace Recorded

section

variable (hr : Recorded h₀ h ns runs)

include hr

theorem chain (hi : Initial h₀ ns) : h.Chained ns := hr.nodes.chained hi.chain

theorem spaced (hi : Initial h₀ ns) : Spaced h ns :=
  hr.nodes.spaced hi.spaced

theorem allocated_head {x : Allocation × List NodePtr} (hx : x ∈ runs)
    {q : NodePtr} (hq : x.2.head? = some q) : (h.node q).allocated = true :=
  have hmem := mem_of_mem_head? hq
  (hr.marks.allocated q (mem_of_mem_tail
    ((hr.marks.isRun x hx).consecutive.subset hmem))).mpr ⟨x, hx, hmem⟩

theorem unmarked (hn : SameNodes h h') (hm : ∀ q, SameMarks h h' q)
    (hsp : Spares h h') : Recorded h₀ h' ns runs where
  nodes := hr.nodes.trans hn
  marks := hr.marks.congr hn hm
  requested := fun x hx q hq => by
    rw [hsp q (hr.allocated_head hx hq)]
    exact hr.requested x hx q hq
  count := fun q hq => (hm q).2.2.trans (hr.count q hq)

/-- **An allocation of any size.** -/
theorem allocate (hi : Initial h₀ ns) (hret : Returns (sysAllocateMemory · h size) (h', p)) :
    ∃ runs', Recorded h₀ h' ns runs' ∧ runs'.map Prod.fst =
      if p = 0 ∨ numBlocks size.toUInt32 = 0 then runs.map Prod.fst
      else runs.map Prod.fst ++ [⟨p, size⟩] := by
  have hc := hr.chain hi
  have hs := hr.spaced hi
  obtain ⟨fuel, hres⟩ := hret
  obtain ⟨hsp, hcase⟩ := sysAllocateMemory_spec hc hres
  rcases hcase with ⟨rfl, hn, hm⟩ | ⟨start, rest, hlt, hf, rfl⟩
  · exact ⟨runs, hr.unmarked hn hm hsp, by rw [if_pos (.inl rfl)]⟩
  by_cases hzero : numBlocks size.toUInt32 = 0
  · -- the run has no node
    have hm : ∀ q, SameMarks h h' q := by
      intro q
      refine hf.marked.frame q ?_
      rw [numBlocks, toUInt32_toInt32] at hzero
      rw [hzero]
      exact not_mem_nil
    exact ⟨runs, hr.unmarked hf.marked.nodes hm hsp, by rw [if_pos (.inr hzero)]⟩
  · have hne : (h.node start).addr ≠ 0 := hs.addr_ne_zero (hf.tail.subset mem_cons_self)
    obtain ⟨run, hrun, hmark, hfree, hnum⟩ := hf.isRun (validSize_of_numBlocks hlt hzero)
    refine ⟨runs ++ [(_, run)], ⟨hr.nodes.trans hmark.nodes,
      hr.marks.mark hmark hrun hnum hfree, fun x hx q hq => ?_, fun q hq => ?_⟩, ?_⟩
    · rcases mem_append.mp hx with hx | hx
      · rw [hsp q (hr.allocated_head hx hq)]
        exact hr.requested x hx q hq
      · obtain rfl := mem_singleton.mp hx
        have hq' := (hrun.head?_iff hs).mp hq
        exact sysAllocateMemory_requested hc hs hres hne hq'.1 hq'.2
    · -- the first node of the list is in no run
      have hnot : q ∉ run := fun hmem => by
        cases ns with
        | nil => cases hq
        | cons first l =>
          cases hq
          exact (nodup_cons.mp hc.nodup).1 (hrun.consecutive.subset hmem)
      exact (hmark.frame q hnot).2.2.trans (hr.count q hq)
    · rw [if_neg (not_or.mpr ⟨hne, hzero⟩), map_append]
      rfl

/-- **A release of a live pointer.** -/
theorem free {a : Allocation} {r : UInt32} (hi : Initial h₀ ns) (ha : a ∈ runs.map Prod.fst)
    (hret : Returns (sysFreeMemory · h a.ptr) (h', r)) :
    ∃ runs', Recorded h₀ h' ns runs' ∧ runs'.map Prod.fst = (runs.map Prod.fst).erase a := by
  have hc := hr.chain hi
  obtain ⟨l1, l2, -, hsplit, herase⟩ := exists_erase_eq ha
  obtain ⟨k1, k, rfl, hk1, hk⟩ := map_eq_append_iff.mp hsplit
  obtain ⟨b, k2, rfl, hb, hk2⟩ := map_eq_cons_iff.mp hk
  obtain ⟨h'', hret', hcl⟩ := sysFreeMemory_run hc (hr.spaced hi) hr.marks (a := b) (by simp)
  rw [hb] at hret'
  cases sysFreeMemory_unique hret hret'
  have hruns := hr.marks.clear hcl
  refine ⟨k1 ++ k2, ⟨hr.nodes.trans hcl.nodes, hruns, fun x hx q hq => ?_, fun q hq => ?_⟩, ?_⟩
  · have hx' : x ∈ k1 ++ b :: k2 := by
      rcases mem_append.mp hx with hx | hx <;> simp [hx]
    -- the node is still allocated, so it has not been cleared
    have hnot : q ∉ b.2 := by
      intro hmem
      have hqns := mem_of_mem_tail ((hr.marks.isRun x hx').consecutive.subset (mem_of_mem_head? hq))
      have hal := (hruns.allocated q hqns).mpr ⟨x, hx, mem_of_mem_head? hq⟩
      rw [hcl.allocated q hmem] at hal
      cases hal
    rw [hcl.frame q hnot]
    exact hr.requested x hx' q hq
  · rw [hcl.frame q (hr.marks.head_notMem hc.nodup hq (by simp))]
    exact hr.count q hq
  · rw [herase, map_append, hk1, hk2]

end

end Recorded

/-- **Along every history.** -/
theorem Usage.exists_recorded {live : List Allocation} (hu : Usage h₀ h live) (hi : Initial h₀ ns) :
    ∃ runs, Recorded h₀ h ns runs ∧ runs.map Prod.fst = live := by
  induction hu with
  | start => exact
    ⟨[], ⟨.refl h₀, runs_of_initial hi, fun _ hx => (nomatch hx), fun _ _ => rfl⟩, rfl⟩
  | allocate _ hret ih =>
    obtain ⟨runs, hr, rfl⟩ := ih
    exact hr.allocate hi hret
  | free _ ha hret ih =>
    obtain ⟨runs, hr, rfl⟩ := ih
    exact hr.free hi ha hret

/-! ### `get_memory_size` -/

/-- **What the loop finds**, if it has as many iterations as the list has nodes. -/
theorem memorySize_eq (h : Heap) (ptr : UInt32) : ∀ {l : List NodePtr} {cur : Option NodePtr},
    Chain h.next cur l → memorySize h ptr l.length cur =
      some ((l.find? fun q => (h.node q).addr = ptr && (h.node q).allocated).elim (-1)
        fun q => (h.node q).totalRequestedMemory) := by
  intro l
  induction l with
  | nil => intro cur _; rfl
  | cons q l ih =>
    intro cur hl
    obtain ⟨rfl, hl⟩ := hl
    rw [length_cons, memorySize, List.find?_cons]
    cases hq : (decide ((h.node q).addr = ptr) && (h.node q).allocated) with
    | true => rw [if_pos rfl]; rfl
    | false => rw [if_neg Bool.false_ne_true]; exact ih hl

theorem getMemorySize_eq (hc : h.Chained ns) (hne : ns ≠ [])
    (hcount : ∀ p, ns.head? = some p → (h.node p).numBlockUsed.toNat = ns.length) (ptr : UInt32) :
    getMemorySize h ptr =
      some ((ns.find? fun q => (h.node q).addr = ptr && (h.node q).allocated).elim (-1)
        fun q => (h.node q).totalRequestedMemory) := by
  cases ns with
  | nil => exact absurd rfl hne
  | cons first l =>
    have hreg : h.memoryRegion = some first := hc.1
    simp only [getMemorySize, hreg, hcount first rfl]
    exact memorySize_eq h ptr (hreg ▸ hc)

/-- **The sizes along every history**: a live pointer has the size it was allocated with, and an
address that starts no live block has none, if the first node counts the nodes. -/
theorem getMemorySize_of_usage {live : List Allocation} (hi : Initial h₀ ns)
    (hcount : ∀ p, ns.head? = some p → (h₀.node p).numBlockUsed.toNat = ns.length)
    (hu : Usage h₀ h live) :
    (∀ a ∈ live, getMemorySize h a.ptr = some a.size.toUInt32) ∧
    ∀ ptr : UInt32, (∀ a ∈ live, ∀ k < a.blocks, ptr.toNat ≠ a.ptr.toNat + blockSize * k) →
      getMemorySize h ptr = some (-1) := by
  obtain ⟨runs, hr, rfl⟩ := hu.exists_recorded hi
  have hs := hr.spaced hi
  have hne : ns ≠ [] := ne_nil_of_length_pos (Nat.lt_of_lt_of_le Nat.zero_lt_two hi.two)
  have heq := getMemorySize_eq (hr.chain hi) hne fun p hp => by rw [hr.count p hp, hcount p hp]
  refine ⟨fun a ha => ?_, fun ptr hptr => ?_⟩
  · obtain ⟨x, hx, rfl⟩ := mem_map.mp ha
    obtain ⟨q, hhead, haddr⟩ := map_eq_some_iff.mp (hr.marks.isRun x hx).ptr
    obtain ⟨hq, -⟩ := ((hr.marks.isRun x hx).head?_iff hs).mp hhead
    -- the node is found, and no other one has its address
    obtain ⟨q', hfind⟩ : ∃ q', ns.find? (fun q =>
        (h.node q).addr = x.1.ptr && (h.node q).allocated) = some q' := by
      refine isSome_iff_exists.mp (List.find?_isSome.mpr ⟨q, hq, ?_⟩)
      rw [hr.allocated_head hx hhead, decide_eq_true haddr]
      rfl
    have hq' := List.find?_some hfind
    rw [Bool.and_eq_true, decide_eq_true_iff] at hq'
    have hqq : q' = q :=
      hs.addr_inj (mem_of_find?_eq_some hfind) hq (hq'.1.trans haddr.symm)
    rw [heq, hfind, hqq]
    exact congrArg some (hr.requested x hx q hhead)
  · have hfind : ns.find? (fun q => (h.node q).addr = ptr && (h.node q).allocated) = none := by
      refine List.find?_eq_none.mpr fun q hq hfound => ?_
      rw [Bool.and_eq_true, decide_eq_true_iff] at hfound
      obtain ⟨x, hx, hqx⟩ := (hr.marks.allocated q hq).mp hfound.2
      obtain ⟨k, hk, haddr⟩ := (hr.marks.isRun x hx).exists_offset hs hqx
      exact hptr x.1 (mem_map_of_mem hx) k hk (by rw [← hfound.1, haddr])
    rw [heq, hfind]
    rfl

end

/-- The heap after some allocations. -/
def busyHeap (sizes : List Int32) : Heap :=
  sizes.foldl (fun h size => ((sysAllocateMemory 5 h size).getD (h, 0)).1) rowHeap

/-- For zero bytes a pointer is returned that has no size. -/
theorem getMemorySize_noByte : Initial rowHeap rowNodes ∧
    (rowHeap.node 0x100).numBlockUsed.toNat = 4 ∧
    Returns (sysAllocateMemory · rowHeap 0) (busyHeap [0], 0x1400) ∧
    getMemorySize (busyHeap [0]) 0x1400 = some (-1) :=
  ⟨initial_rowHeap, rfl, ⟨5, rfl⟩, rfl⟩

/-- A search fails and leaves its size in a node, an allocation overwrites it; then the node is
allocated. -/
theorem getMemorySize_of_usage_busyHeap :
    Usage rowHeap (busyHeap [100, 3000, 0, 1500]) [⟨0x1400, 100⟩, ⟨0x1800, 1500⟩] ∧
      getMemorySize (busyHeap [100, 3000, 0, 1500]) 0x1800 = some 1500 ∧
      getMemorySize (busyHeap [100, 3000, 0, 1500]) 0x1000 = some (-1) := by
  have h1 : Usage rowHeap (busyHeap [100]) [⟨0x1400, 100⟩] :=
    Usage.start.live ⟨5, rfl⟩ (by decide) (by decide)
  have hfail : Returns (sysAllocateMemory · (busyHeap [100]) 3000)
      (busyHeap [100, 3000], 0) := ⟨5, rfl⟩
  have h2 := h1.nothing hfail (.inl rfl)
  have hempty : Returns (sysAllocateMemory · (busyHeap [100, 3000]) 0)
      (busyHeap [100, 3000, 0], 0x1800) := ⟨5, rfl⟩
  have h3 := h2.nothing hempty (.inr (by decide))
  have h4 : Usage rowHeap (busyHeap [100, 3000, 0, 1500]) [⟨0x1400, 100⟩, ⟨0x1800, 1500⟩] :=
    h3.live ⟨5, rfl⟩ (by decide) (by decide)
  have hcount : ∀ p, rowNodes.head? = some p →
      (rowHeap.node p).numBlockUsed.toNat = rowNodes.length := by
    intro p hp
    cases hp
    rfl
  obtain ⟨hlive, hother⟩ := getMemorySize_of_usage initial_rowHeap hcount h4
  refine ⟨h4, hlive ⟨0x1800, 1500⟩ (by decide), hother 0x1000 fun a ha k _ => ?_⟩
  fin_cases ha
  · show 4096 ≠ 5120 + 1024 * k
    omega
  · show 4096 ≠ 6144 + 1024 * k
    omega

end AthenX.KHeap
