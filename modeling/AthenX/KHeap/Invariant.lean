import AthenX.KHeap.Spec

/-!
# Live allocations are disjoint runs of nodes

The invariant of the heap over whole histories. The marks of a node carry the length of its run, and
a release trusts them, so a single stale `num_block_used` would make a later release eat a
neighbour. The invariant says exactly which nodes are marked, and how.
-/

namespace AthenX.KHeap

open Linked List

/-! ### Histories of calls -/

/-- Consecutive nodes describe consecutive blocks. -/
def Spaced (h : Heap) (ns : List NodePtr) : Prop :=
  ∃ base : ℕ, ∀ i p, ns[i]? = some p → (h.node p).addr.toNat = base + blockSize * i

/-- The node list before the first allocation. -/
structure Initial (h : Heap) (ns : List NodePtr) : Prop where
  chain : h.Chained ns
  two : 2 ≤ ns.length
  spaced : Spaced h ns
  size : ∀ p ∈ ns, (h.node p).size.toNat = blockSize
  free : ∀ p ∈ ns, (h.node p).allocated = false
  first : ∀ p ∈ ns, (h.node p).firstBlock = false
  /-- The first node's counter is left out: it holds the number of nodes. -/
  used : ∀ p ∈ ns.tail, (h.node p).numBlockUsed = 0

/-- A pointer returned by `sys_allocate_memory`, and the size it was asked for. -/
structure Allocation where
  ptr : UInt32
  size : Int32
  deriving DecidableEq, Repr

/-- The number of blocks for a size: the size over that of a block, rounded up. -/
def blocksNeeded (size : Int32) : ℕ := (size.toInt.toNat + (blockSize - 1)) / blockSize

/-- The number of blocks of an allocation. -/
def Allocation.blocks (a : Allocation) : ℕ := blocksNeeded a.size

/-- A positive size that can be rounded up in an `int`, smaller than the region. -/
def ValidSize (h : Heap) (size : Int32) : Prop :=
  1 ≤ size.toInt ∧ size.toInt + 1023 ≤ 2147483647 ∧ size.toUInt32 < h.totalRegionSize

/-- Histories of allocations of valid sizes, which may fail, and releases of live pointers. -/
inductive Reachable (h₀ : Heap) : Heap → List Allocation → Prop
  | start : Reachable h₀ h₀ []
  | allocate {h h' : Heap} {live : List Allocation} {size : Int32} {p : UInt32} :
      Reachable h₀ h live → ValidSize h size →
      Returns (sysAllocateMemory · h size) (h', p) →
      Reachable h₀ h' (if p = 0 then live else live ++ [⟨p, size⟩])
  | free {h h' : Heap} {live : List Allocation} {a : Allocation} {r : UInt32} :
      Reachable h₀ h live → a ∈ live →
      Returns (sysFreeMemory · h a.ptr) (h', r) →
      Reachable h₀ h' (live.erase a)

/-! ### The invariant -/

/-- `run` are the nodes of `a`: consecutive, behind the first, as many as needed, from the pointer
on. -/
structure IsRun (h : Heap) (ns : List NodePtr) (a : Allocation) (run : List NodePtr) : Prop where
  length : run.length = a.blocks
  consecutive : run <:+: ns.tail
  ptr : run.head?.map (fun p => (h.node p).addr) = some a.ptr

/-- The runs of the live allocations are disjoint, and the marks say which run a node is in. -/
structure Runs (h : Heap) (ns : List NodePtr) (runs : List (Allocation × List NodePtr)) :
    Prop where
  isRun : ∀ a ∈ runs, IsRun h ns a.1 a.2
  disjoint : (runs.map Prod.snd).Pairwise List.Disjoint
  allocated : ∀ p ∈ ns, (h.node p).allocated = true ↔ ∃ a ∈ runs, p ∈ a.2
  first : ∀ p ∈ ns, (h.node p).firstBlock = true ↔ ∃ a ∈ runs, a.2.head? = some p
  used : ∀ a ∈ runs, ∀ p ∈ a.2, (h.node p).numBlockUsed.toNat = a.2.length
  used_free : ∀ p ∈ ns.tail, (h.node p).allocated = false → (h.node p).numBlockUsed = 0

variable {h h' : Heap} {ns run : List NodePtr} {runs : List (Allocation × List NodePtr)}
  {p q : NodePtr} {a : Allocation × List NodePtr} {num size : Int32} {addr r : UInt32}

theorem runs_of_initial (hi : Initial h ns) : Runs h ns [] where
  isRun := by simp
  disjoint := List.Pairwise.nil
  allocated := by simpa using hi.free
  first := by simpa using hi.first
  used := by simp
  used_free := fun p hp _ => hi.used p hp

/-- The first node of the list is in no run: a run lies in the tail. -/
theorem Runs.head_notMem (hr : Runs h ns runs) (hnd : ns.Nodup) (hp : ns.head? = some p)
    (ha : a ∈ runs) : p ∉ a.2 := by
  intro hmem
  cases ns with
  | nil => simp at hp
  | cons q ns =>
    obtain rfl : q = p := by simpa using hp
    exact (nodup_cons.mp hnd).1 ((hr.isRun a ha).consecutive.subset hmem)

/-! ### Addresses -/

theorem Spaced.eq_of_block (hs : Spaced h ns)
    (hp : p ∈ ns) (hq : q ∈ ns) (hle : (h.node p).addr.toNat ≤ (h.node q).addr.toNat)
    (hlt : (h.node q).addr.toNat < (h.node p).addr.toNat + blockSize) : p = q := by
  obtain ⟨base, hb⟩ := hs
  obtain ⟨i, hi⟩ := mem_iff_getElem?.mp hp
  obtain ⟨j, hj⟩ := mem_iff_getElem?.mp hq
  rw [hb i p hi, hb j q hj] at hle hlt
  have hij : i = j := by unfold blockSize at hle hlt; omega
  subst hij
  exact Option.some.inj (hi.symm.trans hj)

theorem Spaced.addr_inj (hs : Spaced h ns)
    (hp : p ∈ ns) (hq : q ∈ ns) (heq : (h.node p).addr = (h.node q).addr) : p = q :=
  hs.eq_of_block hp hq (by rw [heq]) (by rw [heq]; unfold blockSize; omega)

theorem spaced_of_addrs (base : ℕ)
    (haddr : ns.map (fun p => (h.node p).addr.toNat) =
      (List.range ns.length).map fun i => base + blockSize * i) : Spaced h ns := by
  refine ⟨base, fun i p hp => ?_⟩
  obtain ⟨hi, rfl⟩ := List.getElem?_eq_some_iff.mp hp
  have hget := congrArg (fun l => l[i]?) haddr
  simpa [hi] using hget

/-- Only the first block can be at address `0`, so no run starts there. -/
theorem Spaced.addr_ne_zero (hs : Spaced h ns) (hp : p ∈ ns.tail) : (h.node p).addr ≠ 0 := by
  obtain ⟨base, hb⟩ := hs
  obtain ⟨i, hi⟩ := mem_iff_getElem?.mp hp
  have h1 := hb (i + 1) p (by rw [← hi, List.getElem?_tail])
  intro h0
  rw [h0] at h1
  unfold blockSize at h1
  simp at h1

theorem SameNodes.spaced (hn : SameNodes h h') (hs : Spaced h ns) : Spaced h' ns := by
  obtain ⟨base, hb⟩ := hs
  exact ⟨base, fun i p hp => by rw [hn.addr]; exact hb i p hp⟩

theorem SameNodes.isRun {a : Allocation}
    (hn : SameNodes h h') (hr : IsRun h ns a run) : IsRun h' ns a run := by
  refine ⟨hr.length, hr.consecutive, ?_⟩
  rw [← hr.ptr]
  cases run <;> simp [hn.addr]

/-! ### Allocation -/

/-- Rounding up in `int` arithmetic is rounding up, when the sum fits. -/
theorem toInt_numBlocksNeeded (h1 : 1 ≤ size.toInt) (h2 : size.toInt + 1023 ≤ 2147483647) :
    ((size + 1023) / 1024 : Int32).toInt = (size.toInt + 1023) / 1024 := by
  have hadd : (size + 1023 : Int32).toInt = size.toInt + 1023 := by
    rw [Int32.toInt_add, show (1023 : Int32).toInt = 1023 by decide]
    apply Int.bmod_eq_of_le <;> omega
  have hdiv : (size.toInt + 1023).tdiv 1024 = (size.toInt + 1023) / 1024 :=
    Int.tdiv_eq_ediv_of_nonneg (by omega)
  rw [Int32.toInt_div, hadd, show (1024 : Int32).toInt = 1024 by decide, hdiv]
  apply Int.bmod_eq_of_le <;> omega

theorem toNat_numBlocksNeeded (h1 : 1 ≤ size.toInt)
    (h2 : size.toInt + 1023 ≤ 2147483647) :
    ((size + 1023) / 1024 : Int32).toInt.toNat = blocksNeeded size := by
  rw [toInt_numBlocksNeeded h1 h2]
  simp only [blocksNeeded, blockSize]
  omega

theorem toNat_toUInt32_of_nonneg (h : 0 ≤ num.toInt) : num.toUInt32.toNat = num.toInt.toNat := by
  rw [Int32.toNat_toUInt32_of_le (by rw [Int32.le_iff_toInt_le]; simpa using h)]
  rfl

/-- **A call of a size less than the region** returns null if there is no fit, else the first. -/
theorem sysAllocateMemory_found {fuel : ℕ} (hc : h.Chained ns)
    (hv : size.toUInt32 < h.totalRegionSize) (hres : sysAllocateMemory fuel h size = some (h', r)) :
    Spares h h' ∧
    ((firstFit h ((size + 1023) / 1024 : Int32).toInt.toNat ns.tail = none ∧ r = 0 ∧
        SameNodes h h' ∧ ∀ q, SameMarks h h' q) ∨
      ∃ start rest, firstFit h ((size + 1023) / 1024 : Int32).toInt.toNat ns.tail = some start ∧
        Found h h' ns.tail ((size + 1023) / 1024) start rest ∧ r = (h.node start).addr ∧
        (h'.node start).totalRequestedMemory = size.toUInt32) := by
  unfold sysAllocateMemory at hres
  rw [if_neg (by rw [UInt32.not_le]; exact hv)] at hres
  cases hreg : h.memoryRegion with
  | none => simp [hreg] at hres
  | some first =>
    rw [hreg] at hres
    rw [Heap.Chained, hreg] at hc
    obtain ⟨ns', rfl, hc'⟩ := hc.eq_cons
    exact findFreeZone_found hc' hres

/-- **A call of any size** marks nothing, or a run. -/
theorem sysAllocateMemory_spec {fuel : ℕ} (hc : h.Chained ns)
    (hres : sysAllocateMemory fuel h size = some (h', r)) :
    Spares h h' ∧
    ((r = 0 ∧ SameNodes h h' ∧ ∀ q, SameMarks h h' q) ∨
      ∃ start rest, size.toUInt32 < h.totalRegionSize ∧
        Found h h' ns.tail ((size + 1023) / 1024) start rest ∧ r = (h.node start).addr) := by
  rcases UInt32.lt_or_le size.toUInt32 h.totalRegionSize with hlt | hle
  · obtain ⟨hspares, hcase⟩ := sysAllocateMemory_found hc hlt hres
    refine ⟨hspares, hcase.imp And.right ?_⟩
    rintro ⟨start, rest, -, hf, hr, -⟩
    exact ⟨start, rest, hlt, hf, hr⟩
  · rw [sysAllocateMemory, if_pos hle] at hres
    cases hres
    exact ⟨fun _ _ => rfl, .inl ⟨rfl, SameNodes.refl h, fun _ => ⟨rfl, rfl, rfl⟩⟩⟩

theorem Runs.congr (hr : Runs h ns runs) (hn : SameNodes h h') (hm : ∀ q, SameMarks h h' q) :
    Runs h' ns runs where
  isRun := fun a ha => hn.isRun (hr.isRun a ha)
  disjoint := hr.disjoint
  allocated := fun p hp => by rw [(hm p).1]; exact hr.allocated p hp
  first := fun p hp => by rw [(hm p).2.1]; exact hr.first p hp
  used := fun a ha p hp => by rw [(hm p).2.2]; exact hr.used a ha p hp
  used_free := fun p hp hf => by
    rw [(hm p).2.2]
    exact hr.used_free p hp (by rw [← (hm p).1]; exact hf)

/-- **Marking a run of free nodes adds it to the runs.** -/
theorem Runs.mark {a : Allocation} (hr : Runs h ns runs) (hm : Marked h h' run num)
    (ha : IsRun h ns a run) (hnum : num.toUInt32.toNat = run.length)
    (hfree : ∀ q ∈ run, (h.node q).allocated = false) : Runs h' ns (runs ++ [(a, run)]) := by
  have hsub : ∀ q ∈ run, q ∈ ns := fun q hq => mem_of_mem_tail (ha.consecutive.subset hq)
  -- a free node is in no earlier run
  have hnew : ∀ b ∈ runs, ∀ q ∈ b.2, q ∉ run := by
    intro b hb q hq hqr
    have halloc := (hr.allocated q (hsub q hqr)).mpr ⟨b, hb, hq⟩
    rw [hfree q hqr] at halloc
    exact Bool.false_ne_true halloc
  refine ⟨?_, ?_, ?_, ?_, ?_, ?_⟩
  · intro b hb
    rcases mem_append.mp hb with hb | hb
    · exact hm.nodes.isRun (hr.isRun b hb)
    · obtain rfl := mem_singleton.mp hb
      exact hm.nodes.isRun ha
  · rw [map_append, pairwise_append]
    refine ⟨hr.disjoint, by simp, ?_⟩
    intro l1 hl1 l2 hl2 q hq1 hq2
    obtain ⟨b, hb, rfl⟩ := mem_map.mp hl1
    obtain rfl : l2 = run := by simpa using hl2
    exact hnew b hb q hq1 hq2
  · intro p hp
    by_cases hpr : p ∈ run
    · exact iff_of_true (hm.allocated p hpr) ⟨(a, run), by simp, hpr⟩
    · rw [(hm.frame p hpr).1, hr.allocated p hp]
      simp [hpr]
  · intro p hp
    by_cases hpr : p ∈ run
    · rw [hm.first p hpr]
      constructor
      · intro hhead; exact ⟨(a, run), by simp, hhead⟩
      · rintro ⟨b, hb, hhead⟩
        rcases mem_append.mp hb with hb | hb
        · exact absurd hpr (hnew b hb p (mem_of_mem_head? hhead))
        · obtain rfl := mem_singleton.mp hb
          exact hhead
    · have hne : run.head? ≠ some p := fun hh => hpr (mem_of_mem_head? hh)
      rw [(hm.frame p hpr).2.1, hr.first p hp]
      simp [hne]
  · intro b hb p hp
    rcases mem_append.mp hb with hb | hb
    · rw [(hm.frame p (hnew b hb p hp)).2.2]
      exact hr.used b hb p hp
    · obtain rfl := mem_singleton.mp hb
      rw [hm.used p hp, hnum]
  · intro p hp hf
    have hpr : p ∉ run := by
      intro hpr
      rw [hm.allocated p hpr] at hf
      exact Bool.false_ne_true hf.symm
    rw [(hm.frame p hpr).2.2]
    exact hr.used_free p hp (by rw [← (hm.frame p hpr).1]; exact hf)

theorem Found.isRun {rest : List NodePtr} {start : NodePtr}
    (hf : Found h h' ns.tail ((size + 1023) / 1024) start rest) (hv : ValidSize h size) :
    ∃ run, IsRun h ns ⟨(h.node start).addr, size⟩ run ∧
      Marked h h' run ((size + 1023) / 1024) ∧ (∀ q ∈ run, (h.node q).allocated = false) ∧
      ((size + 1023) / 1024 : Int32).toUInt32.toNat = run.length := by
  obtain ⟨hv1, hv2, -⟩ := hv
  set a : Allocation := ⟨(h.node start).addr, size⟩
  have hnum : ((size + 1023) / 1024 : Int32).toInt.toNat = a.blocks :=
    toNat_numBlocksNeeded hv1 hv2
  have hpos : 1 ≤ a.blocks := by simp only [Allocation.blocks, blocksNeeded, blockSize, a]; omega
  obtain ⟨htail, -, henough, hfree, hmark⟩ := hf
  rw [hnum] at henough hfree hmark
  have hlen : ((start :: rest).take a.blocks).length = a.blocks := by
    rw [length_take]; omega
  refine ⟨(start :: rest).take a.blocks, ⟨hlen, ?_, ?_⟩, hmark, hfree, ?_⟩
  · exact (List.take_prefix _ _).isInfix.trans htail.isInfix
  · obtain ⟨n, hn⟩ : ∃ n, a.blocks = n + 1 := ⟨a.blocks - 1, by omega⟩
    rw [hn]
    rfl
  · rw [hlen, toNat_toUInt32_of_nonneg ?_, hnum]
    omega

/-- **One allocation keeps the invariant.** -/
theorem runs_allocate {p : UInt32} (hc : h.Chained ns) (hs : Spaced h ns)
    (hr : Runs h ns runs) (hv : ValidSize h size)
    (hres : Returns (sysAllocateMemory · h size) (h', p)) :
    SameNodes h h' ∧ ∃ runs', Runs h' ns runs' ∧
      runs'.map Prod.fst =
        if p = 0 then runs.map Prod.fst else runs.map Prod.fst ++ [⟨p, size⟩] := by
  obtain ⟨fuel, hres⟩ := hres
  rcases (sysAllocateMemory_spec hc hres).2 with ⟨rfl, hn, hm⟩ | ⟨start, rest, -, hf, rfl⟩
  · exact ⟨hn, runs, hr.congr hn hm, by rw [if_pos rfl]⟩
  · obtain ⟨run, hrun, hmark, hfree, hnum⟩ := hf.isRun hv
    refine ⟨hmark.nodes, runs ++ [(_, run)], hr.mark hmark hrun hnum hfree, ?_⟩
    rw [if_neg (hs.addr_ne_zero (hf.tail.subset mem_cons_self)), map_append]
    rfl

/-! ### Release -/

/-- The search of `sys_free_memory` ends at the node with the given address. -/
theorem findNode_spec : ∀ {l : List NodePtr} {cur : Option NodePtr},
    Chain h.next cur l → p ∈ l →
    (∀ q ∈ l, (h.node q).addr = (h.node p).addr → q = p) →
    ∀ {fuel : ℕ}, l.length ≤ fuel → findNode h (h.node p).addr fuel cur = some (some p) := by
  intro l
  induction l with
  | nil => intro cur _ hp; simp at hp
  | cons a l ih =>
    intro cur hc hp huniq fuel hfuel
    obtain ⟨rfl, hc⟩ := hc
    obtain ⟨fuel, rfl⟩ : ∃ n, fuel = n + 1 := ⟨fuel - 1, by simp at hfuel; omega⟩
    unfold findNode
    by_cases hap : a = p
    · subst hap; simp
    · rw [if_pos fun heq => hap (huniq a mem_cons_self heq)]
      refine ih hc ?_ (fun q hq => huniq q (mem_cons_of_mem _ hq)) (by simpa using hfuel)
      exact (mem_cons.mp hp).resolve_left fun hpa => hap hpa.symm

theorem findNode_mono {r : Option NodePtr} :
    ∀ {fuel fuel' : ℕ} {cur : Option NodePtr}, findNode h addr fuel cur = some r →
      fuel ≤ fuel' → findNode h addr fuel' cur = some r := by
  intro fuel
  induction fuel with
  | zero => intro fuel' cur hr; simp [findNode] at hr
  | succ fuel ih =>
    intro fuel' cur hr hle
    obtain ⟨fuel', rfl⟩ : ∃ n, fuel' = n + 1 := ⟨fuel' - 1, by omega⟩
    cases cur with
    | none => exact hr
    | some p =>
      unfold findNode at hr ⊢
      split
      · next hne => rw [if_pos hne] at hr; exact ih hr (by omega)
      · next hne => rw [if_neg hne] at hr; exact hr

/-- The results of `sys_free_memory` do not depend on the bound. -/
theorem sysFreeMemory_unique {r r' : Heap × UInt32} (h1 : Returns (sysFreeMemory · h addr) r)
    (h2 : Returns (sysFreeMemory · h addr) r') : r = r' := by
  obtain ⟨f1, h1⟩ := h1
  obtain ⟨f2, h2⟩ := h2
  simp only [sysFreeMemory] at h1 h2
  cases hf1 : findNode h addr f1 h.memoryRegion with
  | none => simp [hf1] at h1
  | some c1 =>
    cases hf2 : findNode h addr f2 h.memoryRegion with
    | none => simp [hf2] at h2
    | some c2 =>
      have e1 := findNode_mono hf1 (Nat.le_max_left f1 f2)
      have e2 := findNode_mono hf2 (Nat.le_max_right f1 f2)
      obtain rfl : c1 = c2 := Option.some.inj (e1.symm.trans e2)
      rw [hf1] at h1
      rw [hf2] at h2
      exact Option.some.inj (h1.symm.trans h2)

section

variable (hc : h.Chained ns) (hs : Spaced h ns) (hr : Runs h ns runs) (ha : a ∈ runs)

include hc hs hr ha

/-- A release of a live pointer looks at no more than the nodes of the list. -/
theorem sysFreeMemory_length :
    ∃ h', sysFreeMemory ns.length h a.1.ptr = some (h', 0) ∧ Cleared h h' a.2 := by
  have hrun := hr.isRun a ha
  obtain ⟨p, hhead⟩ : ∃ p, a.2.head? = some p := by
    cases hh : a.2.head? with
    | none => have := hrun.ptr; simp [hh] at this
    | some p => exact ⟨p, rfl⟩
  have hptr : (h.node p).addr = a.1.ptr := by simpa [hhead] using hrun.ptr
  have hpa : p ∈ a.2 := mem_of_mem_head? hhead
  have hp : p ∈ ns := mem_of_mem_tail (hrun.consecutive.subset hpa)
  have hfind := findNode_spec hc hp (fun q hq heq => hs.addr_inj hq hp heq) le_rfl
  -- the run is a segment of the list, met from its head
  obtain ⟨r, q, hseg⟩ :=
    hc.seg_of_infix (hrun.consecutive.trans (tail_suffix ns).isInfix)
  rw [hseg.start_eq, hhead] at hseg
  have hnd : a.2.Nodup := hc.nodup.sublist (hrun.consecutive.sublist.trans (tail_sublist _))
  obtain ⟨h', hfree, hcl⟩ := markFree_spec a.2 h (some p) q hseg hnd
  refine ⟨h', ?_, hcl⟩
  rw [hptr] at hfind
  simp only [sysFreeMemory, hfind]
  rw [if_pos ((hr.allocated p hp).mpr ⟨a, ha, hpa⟩), hr.used a ha p hpa, hfree]
  rfl

/-- **A release of a live pointer returns null, and clears exactly its run.** -/
theorem sysFreeMemory_run :
    ∃ h', Returns (sysFreeMemory · h a.1.ptr) (h', 0) ∧ Cleared h h' a.2 := by
  obtain ⟨h', hres, hcl⟩ := sysFreeMemory_length hc hs hr ha
  exact ⟨h', ⟨ns.length, hres⟩, hcl⟩

end

/-- **Clearing a run removes it from the runs.** -/
theorem Runs.clear {l1 l2 : List (Allocation × List NodePtr)} (hr : Runs h ns (l1 ++ a :: l2))
    (hcl : Cleared h h' a.2) : Runs h' ns (l1 ++ l2) := by
  have hmem : ∀ b ∈ l1 ++ l2, b ∈ l1 ++ a :: l2 := by
    intro b hb
    rcases mem_append.mp hb with hb | hb <;> simp [hb]
  -- the other runs do not meet the cleared one
  have hother : ∀ b ∈ l1 ++ l2, ∀ q ∈ b.2, q ∉ a.2 := by
    have hd := hr.disjoint
    rw [map_append, pairwise_append] at hd
    obtain ⟨-, hd2, hd3⟩ := hd
    intro b hb q hqb hqa
    rcases mem_append.mp hb with hb | hb
    · exact hd3 b.2 (mem_map_of_mem hb) a.2 mem_cons_self hqb hqa
    · exact (pairwise_cons.mp hd2).1 b.2 (mem_map_of_mem hb) hqa hqb
  refine ⟨?_, ?_, ?_, ?_, ?_, ?_⟩
  · exact fun b hb => hcl.nodes.isRun (hr.isRun b (hmem b hb))
  · refine hr.disjoint.sublist (List.Sublist.map _ ?_)
    exact List.Sublist.append_left (sublist_cons_self _ _) _
  · intro p hp
    by_cases hpa : p ∈ a.2
    · rw [hcl.allocated p hpa]
      refine iff_of_false (by simp) ?_
      rintro ⟨b, hb, hpb⟩
      exact hother b hb p hpb hpa
    · rw [hcl.frame p hpa, hr.allocated p hp]
      simp [or_and_right, exists_or, hpa]
  · intro p hp
    by_cases hpa : p ∈ a.2
    · rw [hcl.first p hpa]
      refine iff_of_false (by simp) ?_
      rintro ⟨b, hb, hpb⟩
      exact hother b hb p (mem_of_mem_head? hpb) hpa
    · have hne : a.2.head? ≠ some p := fun hh => hpa (mem_of_mem_head? hh)
      rw [hcl.frame p hpa, hr.first p hp]
      simp [or_and_right, exists_or, hne]
  · intro b hb p hp
    rw [hcl.frame p (hother b hb p hp)]
    exact hr.used b (hmem b hb) p hp
  · intro p hp hf
    by_cases hpa : p ∈ a.2
    · exact hcl.used p hpa
    · rw [hcl.frame p hpa] at hf ⊢
      exact hr.used_free p hp hf

/-- **One release keeps the invariant.** -/
theorem runs_free {a : Allocation} (hc : h.Chained ns) (hs : Spaced h ns)
    (hr : Runs h ns runs) (ha : a ∈ runs.map Prod.fst)
    (hres : Returns (sysFreeMemory · h a.ptr) (h', r)) :
    SameNodes h h' ∧ ∃ runs', Runs h' ns runs' ∧
      runs'.map Prod.fst = (runs.map Prod.fst).erase a := by
  obtain ⟨l1, l2, -, hsplit, herase⟩ := exists_erase_eq ha
  obtain ⟨k1, k, rfl, hk1, hk⟩ := map_eq_append_iff.mp hsplit
  obtain ⟨b, k2, rfl, hb, hk2⟩ := map_eq_cons_iff.mp hk
  obtain ⟨h'', hret, hcl⟩ := sysFreeMemory_run hc hs hr (a := b) (by simp)
  rw [hb] at hret
  cases sysFreeMemory_unique hres hret
  refine ⟨hcl.nodes, k1 ++ k2, hr.clear hcl, ?_⟩
  rw [herase, map_append, hk1, hk2]

/-! ### Along a history -/

theorem exists_runs_of_reachable {h0 : Heap} {live : List Allocation}
    (hi : Initial h0 ns) (hr : Reachable h0 h live) :
    SameNodes h0 h ∧ ∃ runs, Runs h ns runs ∧ runs.map Prod.fst = live := by
  induction hr with
  | start => exact ⟨SameNodes.refl _, [], runs_of_initial hi, rfl⟩
  | allocate _ hv hres ih =>
    obtain ⟨hn, runs, hruns, rfl⟩ := ih
    have hc := hn.chained hi.chain
    obtain ⟨hn', runs', hruns', hmap⟩ :=
      runs_allocate hc (hn.spaced hi.spaced) hruns hv hres
    exact ⟨hn.trans hn', runs', hruns', hmap⟩
  | free _ ha hres ih =>
    obtain ⟨hn, runs, hruns, rfl⟩ := ih
    have hc := hn.chained hi.chain
    obtain ⟨hn', runs', hruns', hmap⟩ := runs_free hc (hn.spaced hi.spaced) hruns ha hres
    exact ⟨hn.trans hn', runs', hruns', hmap⟩

/-- **Live allocations are disjoint runs of nodes along every history**, of exactly as many nodes as
their sizes need and without the first; the marks say so, and every live pointer can be released. -/
theorem runs_of_reachable {h₀ h : Heap} {ns : List NodePtr} {live : List Allocation}
    (hi : Initial h₀ ns) (hr : Reachable h₀ h live) :
    h.Chained ns ∧
      ∃ runs : List (Allocation × List NodePtr), runs.map Prod.fst = live ∧ Runs h ns runs ∧
        (∀ p, ns.head? = some p → ∀ a ∈ runs, p ∉ a.2) ∧
        ∀ a ∈ live, ∃ h', Returns (sysFreeMemory · h a.ptr) (h', 0) := by
  obtain ⟨hn, runs, hruns, rfl⟩ := exists_runs_of_reachable hi hr
  have hc : h.Chained ns := hn.chained hi.chain
  refine ⟨hc, runs, rfl, hruns, fun p hp a ha => hruns.head_notMem hc.nodup hp ha, ?_⟩
  intro a ha
  obtain ⟨b, hb, rfl⟩ := mem_map.mp ha
  obtain ⟨h', hret, -⟩ := sysFreeMemory_run hc (hn.spaced hi.spaced) hruns hb
  exact ⟨h', hret⟩

/-! ### A heap of three nodes -/

/-- Three free blocks at `0x1000`, in a region of the given size. -/
def sampleHeap (total : UInt32) : Heap where
  node := fun p =>
    if p = 0x100 then ⟨0x1000, 1024, some 0x118, false, false, 3, 0⟩
    else if p = 0x118 then ⟨0x1400, 1024, some 0x130, false, false, 0, 0⟩
    else ⟨0x1800, 1024, none, false, false, 0, 0⟩
  memoryRegion := some 0x100
  totalRegionSize := total
  heapActive := true
  memLockAlloc := false
  memLockFree := false

theorem initial_sampleHeap (total : UInt32) : Initial (sampleHeap total) [0x100, 0x118, 0x130] where
  chain := ⟨rfl, rfl, rfl, rfl⟩
  two := by decide
  spaced := spaced_of_addrs 0x1000 rfl
  size := by intro p hp; fin_cases hp <;> rfl
  free := by intro p hp; fin_cases hp <;> rfl
  first := by intro p hp; fin_cases hp <;> rfl
  used := by intro p hp; fin_cases hp <;> rfl

/-- 1500 bytes take the second and the third node. -/
theorem runs_of_reachable_sampleHeap :
    ∃ h, Reachable (sampleHeap 4096) h [⟨0x1400, 1500⟩] ∧
      h.Chained [0x100, 0x118, 0x130] ∧
      ∃ runs : List (Allocation × List NodePtr), runs.map Prod.fst = [⟨0x1400, 1500⟩] ∧
        Runs h [0x100, 0x118, 0x130] runs := by
  have hres : (sysAllocateMemory 1 (sampleHeap 4096) 1500).map Prod.snd = some 0x1400 := by decide
  obtain ⟨⟨h, p⟩, hres, hp⟩ := Option.map_eq_some_iff.mp hres
  obtain rfl : p = 0x1400 := hp
  have hr : Reachable (sampleHeap 4096) h [⟨0x1400, 1500⟩] :=
    Reachable.allocate .start ⟨by decide, by decide, by decide⟩ ⟨1, hres⟩
  obtain ⟨hc, runs, hlive, hruns, -⟩ := runs_of_reachable (initial_sampleHeap 4096) hr
  exact ⟨h, hr, hc, runs, hlive, hruns⟩

end AthenX.KHeap
