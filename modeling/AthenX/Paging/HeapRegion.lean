import AthenX.KHeap.InitRegion
import AthenX.Paging.Span

/-!
# The pages of the heap

`init_kheap` of `kernel/kheap/kheap.c` asks `pmm_alloc_pages` for two fifths of the memory and
builds the list of nodes there. The loop of `pmm_alloc_pages` takes a page for each it maps, but
stops `PAGE_SIZE` iterations early. That of `init_memory_region` maps every page with blocks to the
frame of the same number, and takes none. The global variables are left out, but for the start of
the region. The nodes' bytes are in `KHeap.InitRegion`, which maps the same pages.
-/

namespace AthenX.Paging

open Partial List Option Function Finset

/-! ### The source -/

/-- The loop of `pmm_alloc_pages`, with `n` iterations to go. -/
def allocPages : ℕ → UInt32 → Machine → Option Machine
  | 0,     _,  m => some m
  | n + 1, va, m => do
      let (p, m) ← pmmAllocPage m
      let m ← map m (va + pageSize) p (pagePresent ||| pageWrite)
      allocPages n (va + pageSize) m

/-- `pmm_alloc_pages`. The subtraction is unsigned. -/
def pmmAllocPages (m : Machine) (numPages : UInt32) : Option (UInt32 × Machine) := do
  let (start, m) ← pmmAllocPage m
  let m ← map m start start (pagePresent ||| pageWrite)
  let m ← allocPages (numPages - pageSize).toNat start m
  some (start, m)

/-- `*va = 0` for a byte: the rest of its word stays. -/
def Machine.clearByte (m : Machine) (va : UInt32) : Option Machine := do
  let w ← m.load va
  m.store va (w &&& ~~~(0xFF <<< (8 * (va % 4))))

/-- The fields of the `Node` at `cur`, but for `total_requested_memory`. -/
def writeNode (m : Machine) (cur addr next : UInt32) : Option Machine := do
  let m ← m.store cur addr
  let m ← m.store (cur + 4) 1024
  let m ← m.store (cur + 8) next
  -- the two truth values are bytes
  let m ← m.clearByte (cur + 12)
  let m ← m.clearByte (cur + 13)
  m.store (cur + 16) 0

/-- Every fourth block starts a page, which is mapped to the address at `cur`. -/
def mapBlock (m : Machine) (i cur : UInt32) : Option Machine :=
  if i % 4 = 0 then do
    let addr ← m.load cur
    map m addr addr (pageWrite ||| pagePresent)
  else some m

/-- The loop of `init_memory_region` from iteration `i` on, up to the first block above `limit`. -/
def initNodes (start numNodes alloc limit : UInt32) :
    ℕ → UInt32 → UInt32 → Machine → Option Machine
  | 0,     _, _,   m => some m
  | n + 1, i, cur, m =>
      if limit < alloc + i * 1024 then m.store (start + 16) i
      else do
        let m ← writeNode m cur (alloc + i * 1024) (if i < numNodes - 1 then cur + 24 else 0)
        let m ← mapBlock m i cur
        initNodes start numNodes alloc limit n (i + 1) (cur + 24) m

/-- `init_memory_region`, with nodes of 24 bytes that are aligned to 16 bytes. -/
def initMemoryRegion (m : Machine) (start size : UInt32) : Option Machine := do
  let numNodes := size / 1024
  let bytesUsedByNodes := numNodes * 24
  let alignmentPadding := (16 - start % 16) % 16
  let alignedStart := start + alignmentPadding
  let bytesAvailable := size - bytesUsedByNodes - alignmentPadding
  let used ← m.load (start + 16)
  let m ← m.store (start + 16) (used + numNodes)
  initNodes start numNodes (alignedStart + bytesUsedByNodes) (alignedStart + bytesAvailable)
    (numNodes.toNat - 1) 1 alignedStart m

/-- `num_total_pages * 0.4`, rounded down. Below `2 ^ 20` pages, the floating point does not show.
-/
def heapPages (size : UInt32) : UInt32 := UInt32.ofNat (2 * (size.toNat / 4096) / 5)

/-- `init_kheap`. -/
def initKheap (m : Machine) (size : UInt32) : Option (UInt32 × Machine) := do
  let (zone, m) ← pmmAllocPages m (heapPages size)
  let m ← initMemoryRegion m zone (heapPages size * pageSize)
  some (zone, m)

variable {n : ℕ} {cur p start va zone : UInt32} {addr : ℕ → UInt32}

/-! ### `pmm_alloc_pages` -/

section

variable {m₀ m : Machine} {D z : ℕ} {used free₀ free taken data : List UInt32}

/-- The pages from `z` on are mapped to the pages taken, one for each, below the stack. -/
structure Laid (m₀ : Machine) (D : ℕ) (used free₀ : List UInt32) (m : Machine)
    (free taken data : List UInt32) (z : ℕ) (addr : ℕ → UInt32) : Prop where
  span : Span m₀ D used free₀ m free taken data (pagePresent ||| pageWrite)
    (Finset.Ico z (z + data.length)) addr
  owned : Owned data (Finset.Ico z (z + data.length)) fun n => frameOf (addr n)

/-- **One page more**: the page just taken is mapped after the others. -/
theorem Laid.grow
    (h : Span m₀ D used free₀ m free taken (p :: data) (pagePresent ||| pageWrite)
      (Finset.Ico z (z + data.length)) addr)
    (ho : Owned data (Finset.Ico z (z + data.length)) fun n => frameOf (addr n)) (hp : p ∉ data)
    (hguard : pte m₀ D 1046526 = 0) (hva : va.toNat = 4096 * (z + data.length))
    (hlow : va.toNat < 0xFF7FE000) :
    Yields (Short m₀ D free₀ (data.length + 1) (Finset.Ico z (z + (data.length + 1))))
      (fun m' => ∃ free' taken' addr', Laid m₀ D used free₀ m' free' taken' (p :: data) z addr')
      (map m va p (pagePresent ||| pageWrite)) := by
  have hpage : va.toNat / 4096 = z + data.length := by omega
  have hmap := h.map_yields hguard (by simp; omega) (show va.toNat / 4096 < 1046527 by omega) p
  rw [hpage, Ico_succ] at hmap
  refine hmap.mono id ?_
  rintro m' ⟨free', taken', h'⟩
  have ho' := ho.insert (n := z + data.length) (by simp) hp (h.aligned p mem_cons_self)
    fun q hq => h.aligned q (mem_cons_of_mem p hq)
  rw [Ico_succ, ← frameOf_update] at ho'
  exact ⟨free', taken', _, h', ho'⟩

/-- **The loop of `pmm_alloc_pages`** maps `n` more pages, each to a page taken for it. -/
theorem Laid.allocPages (hguard : pte m₀ D 1046526 = 0) (n : ℕ) :
    ∀ {m : Machine} {free taken data : List UInt32} {addr : ℕ → UInt32} {va : UInt32},
    Laid m₀ D used free₀ m free taken data z addr → va.toNat + 4096 = 4096 * (z + data.length) →
    4096 * (z + data.length + n) ≤ 0xFF7FE000 →
    Yields (Short m₀ D free₀ (data.length + n) (Finset.Ico z (z + (data.length + n))))
      (fun m' => ∃ free' taken' data' addr', data'.length = data.length + n ∧
        Laid m₀ D used free₀ m' free' taken' data' z addr') (allocPages n va m) := by
  induction n with
  | zero =>
    intro m free taken data addr va h _ _
    exact Yields.of_some ⟨free, taken, data, addr, rfl, h⟩
  | succ n ih =>
    intro m free taken data addr va h hva hlow
    have hnext : (va + pageSize).toNat = va.toNat + 4096 := by
      rw [UInt32.toNat_add, toNat_pageSize]
      omega
    refine Yields.bind ((h.span.take_yields hguard (by simp; omega)).mono (fun hs =>
      hs.mono (by omega) (Finset.Ico_subset_Ico_right (by omega))) fun _ => id) ?_
    rintro ⟨p, m1⟩ ⟨hp, free1, h1⟩
    refine Yields.bind ((Laid.grow h1 h.owned hp hguard (hnext.trans hva) (by omega)).mono
      (fun hs => hs.mono (by omega) (Finset.Ico_subset_Ico_right (by omega))) fun _ => id) ?_
    rintro m2 ⟨free2, taken2, addr2, h2⟩
    have hlen : (p :: data).length + n = data.length + (n + 1) := by
      rw [length_cons]
      omega
    rw [← hlen]
    exact ih h2 (by rw [length_cons]; omega) (by rw [length_cons]; omega)

/-- **`pmm_alloc_pages`**: the pages from the first one taken on. -/
theorem Laid.pmmAllocPages (numPages : UInt32)
    (h0 : Stocked m₀ D used (free ++ [zone]) []) (hz : zone.toNat = 4096 * z)
    (hlow : 4096 * (z + ((numPages - pageSize).toNat + 1)) ≤ 0xFF7FE000) :
    Yields (Short m₀ D (free ++ [zone]) ((numPages - pageSize).toNat + 1)
        (Finset.Ico z (z + ((numPages - pageSize).toNat + 1))))
      (fun r => r.1 = zone ∧ ∃ free' taken' data' addr',
        data'.length = (numPages - pageSize).toNat + 1 ∧
        Laid m₀ D used (free ++ [zone]) r.2 free' taken' data' z addr')
      (pmmAllocPages m₀ numPages) := by
  have hempty : Finset.Ico z (z + ([] : List UInt32).length) = ∅ := by simp
  have h := Span.start h0.supply (pagePresent ||| pageWrite) fun _ => 0
  rw [← hempty] at h
  refine Yields.bind ((h.take_yields h0.guard (by simp)).mono
    (fun hs => hs.mono (by simp) (by simp)) fun _ => id) ?_
  rintro ⟨p, m1⟩ ⟨hp, free1, h1⟩
  obtain rfl : zone = p := by
    have htotal := h1.total
    simpa using (append_inj' htotal rfl).2
  have ho : Owned [] (Finset.Ico z (z + ([] : List UInt32).length)) fun _ => frameOf 0 := by
    exact ⟨by simp, by simp⟩
  refine Yields.bind ((Laid.grow h1 ho hp h0.guard (by simpa using hz) (by omega)).mono
    (fun hs => hs.mono (by simp) (Finset.Ico_subset_Ico_right (by simp))) fun _ => id) ?_
  rintro m2 ⟨free2, taken2, addr2, h2⟩
  have hnext : zone.toNat + 4096 = 4096 * (z + [zone].length) := by
    rw [length_singleton]
    omega
  have hloop := h2.allocPages h0.guard (numPages - pageSize).toNat hnext
    (by rw [length_singleton]; omega)
  simp only [length_cons, length_nil, Nat.add_comm 1 (numPages - pageSize).toNat] at hloop
  refine Yields.bind hloop ?_
  intro m3 h3
  exact Yields.of_some ⟨rfl, h3⟩

theorem allocPages_none_add (b : ℕ) : ∀ {a : ℕ} {va : UInt32} {m : Machine},
    allocPages a va m = none → allocPages (a + b) va m = none := by
  intro a
  induction a with
  | zero => intro va m h; cases h
  | succ a ih =>
    intro va m h
    rw [Nat.add_right_comm]
    simp only [allocPages, bind_eq_bind, bind_eq_none_iff] at h ⊢
    intro r hr m' hm'
    exact ih (h r hr m' hm')

theorem pmmAllocPages_none_of_le {a b : UInt32} (hab : (a - pageSize).toNat ≤ (b - pageSize).toNat)
    (h : pmmAllocPages m a = none) : pmmAllocPages m b = none := by
  obtain ⟨c, hc⟩ := Nat.exists_eq_add_of_le hab
  simp only [pmmAllocPages, bind_eq_bind, bind_eq_none_iff] at h ⊢
  intro r hr m1 hm1 m2 hm2
  have hloop : allocPages (a - pageSize).toNat r.1 m1 = none := by
    cases ha : allocPages (a - pageSize).toNat r.1 m1 with
    | none => rfl
    | some m3 => exact absurd (h r hr m1 hm1 m3 ha) (by simp)
  rw [hc, allocPages_none_add c hloop] at hm2
  cases hm2

/-- **`pmm_alloc_pages` does not come back** when it would take more pages than there are. -/
theorem pmmAllocPages_none (numPages : UInt32) (h0 : Stocked m₀ D used (free ++ [zone]) [])
    (hz : zone.toNat = 4096 * z) (hlow : 4096 * (z + (free.length + 2)) ≤ 0xFF7FE000)
    (hmany : free.length < (numPages - pageSize).toNat) : pmmAllocPages m₀ numPages = none := by
  -- one more iteration than there are pages is enough to get stuck
  have hcount : (UInt32.ofNat (free.length + 1 + 4096) - pageSize).toNat = free.length + 1 := by
    rw [UInt32.toNat_sub, UInt32.toNat_ofNat', toNat_pageSize]
    omega
  apply pmmAllocPages_none_of_le (a := UInt32.ofNat (free.length + 1 + 4096)) (by omega)
  have hyields := Laid.pmmAllocPages (UInt32.ofNat (free.length + 1 + 4096)) h0 hz (by omega)
  rcases hyields with ⟨hnone, -⟩ | ⟨r, -, -, free', taken', data', addr', hlen, h⟩
  · exact hnone
  · have hlength := h.span.length_free
    rw [length_append, length_singleton] at hlength
    omega

end

/-! ### `init_memory_region` -/

section

variable {m₀ m : Machine} {D : ℕ} {used free₀ free taken data : List UInt32}
  {pages heap : Finset ℕ}

/-- What a store to a word of the heap did. -/
structure Put (m₀ : Machine) (D : ℕ) (used free₀ : List UInt32) (m : Machine)
    (free taken data : List UInt32) (pages heap : Finset ℕ) (addr : ℕ → UInt32) (va : UInt32)
    (m' : Machine) : Prop where
  span : Span m₀ D used free₀ m' free taken data (pagePresent ||| pageWrite) pages addr
  mem : va.toNat / 4096 ∈ heap
  other : ∀ va' : UInt32, va'.toNat / 4096 ∈ heap → va'.toNat / 4 ≠ va.toNat / 4 →
    m'.load va' = m.load va'

namespace Span

section

variable (h : Span m₀ D used free₀ m free taken data (pagePresent ||| pageWrite) pages addr)

include h

theorem translate (hva : va.toNat / 4096 ∈ pages) :
    m.translate va = some (frameOf (addr (va.toNat / 4096)), wordOf va) := by
  have hn := h.below _ hva
  refine h.supply.selfMapped.translate_of_entry ?_
  rw [h.pte _ (by omega), if_pos hva]
  exact entry_pteOf _ (by decide)

theorem load (hva : va.toNat / 4096 ∈ pages) :
    m.load va = some (m.mem (frameOf (addr (va.toNat / 4096))) (wordOf va)) := by
  rw [Machine.load, h.translate hva, map_some]

theorem translate_none (hva : va.toNat < 0xF0000000) (hn : va.toNat / 4096 ∉ pages)
    (hz : Paging.pte m₀ D (va.toNat / 4096) = 0) : m.translate va = none := by
  apply Stocked.translate_none h.supply.selfMapped
  rw [h.pte _ (by omega), if_neg hn]
  exact hz

/-- A store to a page of `data`. -/
theorem poke (hp : p ∈ data) (i : ℕ) (v : UInt32) :
    Span m₀ D used free₀ (m.poke (frameOf p) i v) free taken data (pagePresent ||| pageWrite)
      pages addr := by
  have hfresh := h.supply.fresh p (Supply.mem_data hp)
  have hdir : ∀ d, (m.poke (frameOf p) i v).mem D d = m.mem D d := by
    intro d
    rw [Machine.poke_mem, if_neg fun hc => hfresh.1 hc.1.symm]
  refine ⟨h.supply.store hp i v, h.total, h.count, h.subset, h.below, ?_, ?_, ?_⟩
  · simpa only [hdir] using h.directory
  · simpa only [hdir] using h.keeps
  · intro n hn
    rw [Supply.pte_poke_fresh h.supply.selfMapped hfresh i v (by omega)]
    exact h.pte n hn

section

variable (ho : Owned data heap fun n => frameOf (addr n)) (hs : heap ⊆ pages)
  (hva : va.toNat < 0xF0000000)
  (hin : va.toNat / 4096 ∉ heap → va.toNat / 4096 ∉ pages ∧ Paging.pte m₀ D (va.toNat / 4096) = 0)

include ho hs hva hin

/-- **A store to the heap** comes back if its page was mapped, and changes one word. -/
theorem put (v : UInt32) : Yields (va.toNat / 4096 ∉ heap)
      (fun m' => Put m₀ D used free₀ m free taken data pages heap addr va m' ∧
        m'.load va = some v) (m.store va v) := by
  by_cases hmem : va.toNat / 4096 ∈ heap
  · obtain ⟨p, hp, hf⟩ := ho.own _ hmem
    rw [Machine.store, h.translate (hs hmem), hf]
    have h' := h.poke hp (wordOf va) v
    refine Yields.of_some ⟨⟨h', hmem, ?_⟩, ?_⟩
    · intro va' hmem' hne
      rw [h'.load (hs hmem'), h.load (hs hmem'), Machine.poke_mem, if_neg]
      rintro ⟨hframe, hword⟩
      have hpage := ho.inj _ hmem' _ hmem (hframe.trans hf.symm)
      rw [wordOf_eq, wordOf_eq] at hword
      omega
    · rw [h'.load (hs hmem), hf, Machine.poke_mem, if_pos ⟨rfl, rfl⟩]
  · obtain ⟨hn, hz⟩ := hin hmem
    rw [Machine.store, h.translate_none hva hn hz]
    exact Yields.of_none hmem

theorem clearByte : Yields (va.toNat / 4096 ∉ heap)
      (Put m₀ D used free₀ m free taken data pages heap addr va) (m.clearByte va) := by
  by_cases hmem : va.toNat / 4096 ∈ heap
  · rw [Machine.clearByte, h.load (hs hmem)]
    exact (h.put ho hs hva hin _).mono id fun _ => And.left
  · obtain ⟨hn, hz⟩ := hin hmem
    rw [Machine.clearByte, Machine.load, h.translate_none hva hn hz]
    exact Yields.of_none hmem

end

/-- **The fields of a node**: `addr` can be read back. -/
theorem writeNode (ho : Owned data heap fun n => frameOf (addr n)) (hs : heap ⊆ pages) {Q : Prop}
    (hcur : cur.toNat + 16 < 0xF0000000) (hal : cur.toNat % 4 = 0)
    (hin : ∀ n, cur.toNat / 4096 ≤ n → n ≤ (cur.toNat + 16) / 4096 → n ∉ heap →
      n ∉ pages ∧ Paging.pte m₀ D n = 0)
    (hQ : ∀ n, cur.toNat / 4096 ≤ n → n ≤ (cur.toNat + 16) / 4096 → n ∉ heap → Q)
    (block next : UInt32) :
    Yields Q (fun m' => Span m₀ D used free₀ m' free taken data (pagePresent ||| pageWrite) pages
      addr ∧ m'.load cur = some block) (Paging.writeNode m cur block next) := by
  have hword : ∀ off : UInt32, off.toNat ≤ 16 → (cur + off).toNat = cur.toNat + off.toNat := by
    intro off hoff
    rw [UInt32.toNat_add]
    omega
  have h4 := hword 4 (by decide)
  have h8 := hword 8 (by decide)
  have h12 := hword 12 (by decide)
  have h13 := hword 13 (by decide)
  have h16 := hword 16 (by decide)
  simp only [UInt32.reduceToNat] at h4 h8 h12 h13 h16
  refine Yields.bind ((h.put ho hs (by omega) (hin _ (by omega) (by omega)) block).mono
    (hQ _ (by omega) (by omega)) fun _ => id) ?_
  rintro m1 ⟨h1, hl1⟩
  refine Yields.bind ((h1.span.put ho hs (by omega) (hin _ (by omega) (by omega)) 1024).mono
    (hQ _ (by omega) (by omega)) fun _ => And.left) ?_
  intro m2 h2
  refine Yields.bind ((h2.span.put ho hs (by omega) (hin _ (by omega) (by omega)) next).mono
    (hQ _ (by omega) (by omega)) fun _ => And.left) ?_
  intro m3 h3
  refine Yields.bind ((h3.span.clearByte ho hs (by omega) (hin _ (by omega) (by omega))).mono
    (hQ _ (by omega) (by omega)) fun _ => id) ?_
  intro m4 h₄
  refine Yields.bind ((h₄.span.clearByte ho hs (by omega) (hin _ (by omega) (by omega))).mono
    (hQ _ (by omega) (by omega)) fun _ => id) ?_
  intro m5 h5
  refine (h5.span.put ho hs (by omega) (hin _ (by omega) (by omega)) 0).mono
    (hQ _ (by omega) (by omega)) ?_
  rintro m6 ⟨h6, -⟩
  -- none of the later stores touches the first word
  have hcur' := h1.mem
  refine ⟨h6.span, ?_⟩
  rw [h6.other cur hcur' (by omega), h5.other cur hcur' (by omega), h₄.other cur hcur' (by omega),
    h3.other cur hcur' (by omega), h2.other cur hcur' (by omega), hl1]

end

end Span

end

/-- The first `j` pages with blocks. -/
abbrev blocksTo (z p j : ℕ) : Finset ℕ := Finset.Ioc (z + 3 * p / 128) (z + 3 * p / 128 + j)

/-- The pages that `init_memory_region` maps, for a heap of `p` pages from page `z` on. -/
def blockPages (z p : ℕ) : Finset ℕ := blocksTo z p (61 * p / 64)

/-- The pages that only `pmm_alloc_pages` maps, `k + 1` at most. -/
def nodePages (z p k : ℕ) : Finset ℕ := Finset.Ico z (z + (k + 1)) \ blockPages z p

/-- After `j` of the pages that hold blocks were mapped. -/
structure Building (m₀ : Machine) (D : ℕ) (used free₀ : List UInt32) (m : Machine)
    (free taken data : List UInt32) (z p k j : ℕ) (addr : ℕ → UInt32) : Prop where
  span : Span m₀ D used free₀ m free taken data (pagePresent ||| pageWrite)
    (Finset.Ico z (z + (k + 1)) ∪ blocksTo z p j) addr
  owned : Owned data (nodePages z p k) fun n => frameOf (addr n)
  same : ∀ n ∈ blocksTo z p j, frameOf (addr n) = n

/-- As `Building`, with the pages taken by the way. -/
def Built (m₀ : Machine) (D : ℕ) (used free₀ data : List UInt32) (z p k j : ℕ) (m : Machine) :
    Prop :=
  ∃ free taken addr, Building m₀ D used free₀ m free taken data z p k j addr

/-- Why `init_memory_region` may not come back: page tables or nodes find no page. -/
def Fails (m₀ : Machine) (D : ℕ) (free₀ : List UInt32) (c z p k : ℕ) : Prop :=
  Short m₀ D free₀ c (Finset.Ico z (z + (k + 1)) ∪ blockPages z p) ∨
    k < (24 * (61 * p / 16) - 8) / 4096

section

variable {m₀ m : Machine} {D z p k j : ℕ} {used free₀ free taken data : List UInt32}

theorem nodePages_subset :
    nodePages z p k ⊆
      Finset.Ico z (z + (k + 1)) ∪ blocksTo z p j :=
  fun _ hn => mem_union_left _ (mem_sdiff.mp hn).1

theorem mem_nodePages (hz : z ≤ n) (hn : n ≤ z + 3 * p / 128) :
    n ∈ nodePages z p k ↔ n ≤ z + k := by
  simp only [nodePages, blockPages, mem_sdiff, mem_Ico, mem_Ioc]
  omega

theorem toNat_first_add (hstart : start.toNat = 4096 * z) :
    (start + 16).toNat = start.toNat + 16 := by
  have hlt := start.toNat_lt
  rw [UInt32.toNat_add, show (16 : UInt32).toNat = 16 by decide]
  omega

theorem first_mem_nodePages (hstart : start.toNat = 4096 * z) :
    (start + 16).toNat / 4096 ∈ nodePages z p k := by
  have hlast := toNat_first_add hstart
  rw [mem_nodePages (by omega) (by omega)]
  omega

section

variable (hguard : pte m₀ D 1046526 = 0) (hk : z + k < 983040)

include hguard hk

/-- **One more page with blocks**: it is mapped to the frame of its own number. -/
theorem Building.map (h : Building m₀ D used free₀ m free taken data z p k j addr)
    (hva : va.toNat / 4096 = z + 3 * p / 128 + (j + 1)) (hlow : va.toNat < 0xF0000000)
    (hj : j + 1 ≤ 61 * p / 64) :
    Yields (Fails m₀ D free₀ data.length z p k) (Built m₀ D used free₀ data z p k (j + 1))
      (Paging.map m va va (pageWrite ||| pagePresent)) := by
  have hpages : insert (va.toNat / 4096) (Finset.Ico z (z + (k + 1)) ∪ blocksTo z p j) =
      Finset.Ico z (z + (k + 1)) ∪ blocksTo z p (j + 1) := by
    ext n
    simp only [mem_insert, mem_union, mem_Ico, mem_Ioc]
    omega
  have hmap := h.span.map_yields hguard (by simp; omega)
    (show va.toNat / 4096 < 1046527 by omega) va
  rw [hpages] at hmap
  refine hmap.mono ?_ ?_
  · intro hs
    refine .inl (hs.mono le_rfl (union_subset_union_right ?_))
    exact Finset.Ioc_subset_Ioc_right (by omega)
  · rintro m' ⟨free', taken', h'⟩
    refine ⟨free', taken', _, h', ?_, ?_⟩
    · rw [frameOf_update]
      apply h.owned.update
      simp only [nodePages, blockPages, mem_sdiff, mem_Ioc]
      omega
    · intro n hn
      rcases eq_or_ne n (va.toNat / 4096) with rfl | hne
      · rw [update_self, frameOf_eq]
      · rw [update_of_ne hne]
        apply h.same
        simp only [mem_Ioc] at hn ⊢
        omega

theorem Building.mapBlock {i : UInt32}
    (h : Building m₀ D used free₀ m free taken data z p k ((i.toNat - 1) / 4) addr)
    (hload : m.load cur = some va) (hone : 1 ≤ i.toNat)
    (hva : i.toNat % 4 = 0 → va.toNat / 4096 = z + 3 * p / 128 + i.toNat / 4)
    (hlow : va.toNat < 0xF0000000) (hi : i.toNat ≤ 61 * p / 16) :
    Yields (Fails m₀ D free₀ data.length z p k) (Built m₀ D used free₀ data z p k (i.toNat / 4))
      (mapBlock m i cur) := by
  have hmod : i % 4 = 0 ↔ i.toNat % 4 = 0 := by
    rw [← UInt32.toNat_inj]
    rfl
  rw [Paging.mapBlock]
  by_cases hfour : i % 4 = 0
  · rw [if_pos hfour, hload]
    rw [hmod] at hfour
    rw [show i.toNat / 4 = (i.toNat - 1) / 4 + 1 by omega] at hva ⊢
    exact h.map hguard hk (hva hfour) hlow (by omega)
  · rw [if_neg hfour]
    rw [hmod] at hfour
    rw [show i.toNat / 4 = (i.toNat - 1) / 4 by omega]
    exact Yields.of_some ⟨free, taken, addr, h⟩

end

section

variable {numNodes alloc limit : UInt32} (hp : 16 ≤ p) (hspace : 4096 * (z + p) ≤ 0xF0000000)
  (hstart : start.toNat = 4096 * z) (halloc : alloc.toNat = start.toNat + 96 * p)
  (hlimit : limit.toNat = start.toNat + 4000 * p)

include hspace hstart halloc hlimit

/-- The block of iteration `i`, and when it is above the limit. -/
theorem block_at {i : UInt32} (hi : i.toNat ≤ 61 * p / 16 + 1) :
    (alloc + i * 1024).toNat = alloc.toNat + i.toNat * 1024 ∧
      (limit < alloc + i * 1024 ↔ 61 * p / 16 < i.toNat) := by
  have hblock : (alloc + i * 1024).toNat = alloc.toNat + i.toNat * 1024 := by
    rw [UInt32.toNat_add, UInt32.toNat_mul, show (1024 : UInt32).toNat = 1024 by decide]
    omega
  refine ⟨hblock, ?_⟩
  rw [UInt32.lt_iff_toNat_lt]
  omega

include hp

theorem exists_mem_mapped (c : ℕ) : ∀ {i : ℕ} {cur : UInt32} {r : KHeap.Region},
    i + c = 4 * p → 1 ≤ i → i ≤ 61 * p / 16 + 1 →
    ((∃ a ∈ (KHeap.initNodes start alloc limit numNodes c i cur r).mapped, a.toNat / 4096 = n) ↔
      (∃ a ∈ r.mapped, a.toNat / 4096 = n) ∨
        z + 3 * p / 128 + (i - 1) / 4 < n ∧ n ≤ z + 3 * p / 128 + 61 * p / 64) := by
  induction c with
  | zero => omega
  | succ c ih =>
    intro i cur r hc hone hle
    have hi : (UInt32.ofNat i).toNat = i := UInt32.toNat_ofNat_of_lt' (show i < 2 ^ 32 by omega)
    obtain ⟨hblock, hbreak⟩ := block_at hspace hstart halloc hlimit (hi.symm ▸ hle)
    rw [hi] at hblock hbreak
    rw [KHeap.initNodes]
    split
    · next hend =>
      rw [hbreak] at hend
      exact (or_iff_left (by omega)).symm
    · next hend =>
      rw [hbreak] at hend
      rw [ih (by omega) (by omega) (by omega)]
      by_cases hfour : i % 4 = 0
      · have hpage : (alloc + UInt32.ofNat i * 1024).toNat / 4096 = z + 3 * p / 128 + i / 4 := by
          omega
        have hlast : i / 4 ≤ 61 * p / 64 := by omega
        simp only [if_pos hfour, List.mem_append, List.mem_singleton, or_and_right, exists_or,
          exists_eq_left, hpage]
        exact or_assoc.trans (or_congr_right (by omega))
      · rw [if_neg hfour]
        exact or_congr_right (by omega)

/-- **The loop of `init_memory_region`** maps the pages with blocks to their own frames. -/
theorem Building.initNodes (hguard : pte m₀ D 1046526 = 0) (hk : z + k < 983040)
    (hzero : ∀ n, z ≤ n → n < z + p → pte m₀ D n = 0) (c : ℕ) : ∀ {i cur : UInt32} {m : Machine}
    {free taken : List UInt32} {addr : ℕ → UInt32},
    Building m₀ D used free₀ m free taken data z p k ((i.toNat - 1) / 4) addr →
    i.toNat + c = 4 * p → 1 ≤ i.toNat → i.toNat ≤ 61 * p / 16 + 1 →
    cur.toNat = start.toNat + 24 * (i.toNat - 1) →
    Yields (Fails m₀ D free₀ data.length z p k) (Built m₀ D used free₀ data z p k (61 * p / 64))
      (initNodes start numNodes alloc limit c i cur m) := by
  induction c with
  | zero =>
    -- the blocks end before the nodes do
    omega
  | succ c ih =>
    intro i cur m free taken addr h hc hone hle hcur
    obtain ⟨hblock, hbreak⟩ := block_at hspace hstart halloc hlimit hle
    rw [Paging.initNodes]
    by_cases hend : limit < alloc + i * 1024
    · rw [if_pos hend]
      have hlast := toNat_first_add hstart
      have hmem : (start + 16).toNat / 4096 ∈ nodePages z p k := first_mem_nodePages hstart
      refine (h.span.put h.owned nodePages_subset (by omega) (absurd hmem) i).mono
        (absurd hmem) ?_
      rintro m' ⟨h', -⟩
      rw [hbreak] at hend
      rw [show 61 * p / 64 = (i.toNat - 1) / 4 by omega]
      exact ⟨free, taken, addr, h'.span, h.owned, h.same⟩
    · rw [if_neg hend]
      rw [hbreak] at hend
      -- the nodes end in front of the blocks
      have hnode : ∀ n, cur.toNat / 4096 ≤ n → n ≤ (cur.toNat + 16) / 4096 →
          z ≤ n ∧ n ≤ z + (24 * (61 * p / 16) - 8) / 4096 ∧ n ≤ z + 3 * p / 128 := by
        omega
      refine Yields.bind (h.span.writeNode h.owned nodePages_subset (by omega) (by omega)
        ?_ ?_ _ _) ?_
      · intro n hlo hhi hn
        obtain ⟨hz, -, hbase⟩ := hnode n hlo hhi
        rw [mem_nodePages hz hbase] at hn
        refine ⟨?_, hzero n hz (by omega)⟩
        simp only [mem_union, mem_Ico, mem_Ioc]
        omega
      · intro n hlo hhi hn
        obtain ⟨hz, hlast, hbase⟩ := hnode n hlo hhi
        rw [mem_nodePages hz hbase] at hn
        exact .inr (by omega)
      rintro m1 ⟨h1, hload⟩
      have hb : Building m₀ D used free₀ m1 free taken data z p k ((i.toNat - 1) / 4) addr :=
        ⟨h1, h.owned, h.same⟩
      have hnext : (i + 1).toNat = i.toNat + 1 := by
        rw [UInt32.toNat_add, UInt32.toNat_one]
        omega
      have hcur' : (cur + 24).toNat = cur.toNat + 24 := by
        rw [UInt32.toNat_add, show (24 : UInt32).toNat = 24 by decide]
        omega
      refine Yields.bind
        (hb.mapBlock hguard hk hload hone (fun _ => by omega) (by omega) (by omega)) ?_
      rintro m2 ⟨free2, taken2, addr2, h2⟩
      rw [← Nat.add_sub_cancel i.toNat 1, ← hnext] at h2
      exact ih h2 (by omega) (by omega) (by omega) (by omega)

end

/-- Before the first block: only `pmm_alloc_pages` has mapped pages. -/
theorem Laid.building (h : Laid m₀ D used free₀ m free taken data z addr)
    (hk : data.length = k + 1) : Building m₀ D used free₀ m free taken data z p k 0 addr where
  span := by
    have hr := h.span
    rw [hk] at hr
    simpa using hr
  owned := by
    have ho := h.owned
    rw [hk] at ho
    exact ⟨fun n hn => ho.own n (sdiff_subset hn),
      fun a ha b hb => ho.inj a (sdiff_subset ha) b (sdiff_subset hb)⟩
  same := by simp

section

variable {size : UInt32} (hp : 16 ≤ p) (hspace : 4096 * (z + p) ≤ 0xF0000000)
  (hstart : start.toNat = 4096 * z) (hsize : size.toNat = 4096 * p)

include hspace hstart hsize

/-- Where the blocks start and end. -/
theorem blocks_at : (size / 1024).toNat = 4 * p ∧ (16 - start % 16) % 16 = 0 ∧
      (start + size / 1024 * 24).toNat = start.toNat + 96 * p ∧
      (start + (size - size / 1024 * 24)).toNat = start.toNat + 4000 * p := by
  have hnodes : (size / 1024).toNat = 4 * p := by
    rw [UInt32.toNat_div, show (1024 : UInt32).toNat = 1024 by decide]
    omega
  have hused : (size / 1024 * 24).toNat = 96 * p := by
    rw [UInt32.toNat_mul, show (24 : UInt32).toNat = 24 by decide]
    omega
  have hmod : start % 16 = 0 := by
    rw [← UInt32.toNat_inj, UInt32.toNat_mod]
    simp only [UInt32.reduceToNat]
    omega
  refine ⟨hnodes, by rw [hmod]; decide, ?_, ?_⟩
  · rw [UInt32.toNat_add]
    omega
  · rw [UInt32.toNat_add, UInt32.toNat_sub_of_le _ _ (by rw [UInt32.le_iff_toNat_le]; omega)]
    omega

include hp

/-- **The two models of `init_memory_region`** map the same pages. -/
theorem mem_blockPages_iff (b : Bytes.Memory) : n ∈ blockPages z p ↔
      ∃ a ∈ (KHeap.initMemoryRegion b start size).mapped, a.toNat / 4096 = n := by
  obtain ⟨hnodes, hpad, halloc, havail⟩ := blocks_at hspace hstart hsize
  simp only [KHeap.initMemoryRegion, hpad, UInt32.add_zero, UInt32.sub_zero]
  rw [exists_mem_mapped hp hspace hstart halloc havail _ (by omega) le_rfl (by omega)]
  simp [blockPages]

/-- **`init_memory_region`** on the pages that `pmm_alloc_pages` has mapped. -/
theorem Laid.initMemoryRegion (hguard : pte m₀ D 1046526 = 0)
    (h : Laid m₀ D used free₀ m free taken data z addr) (hk : data.length = k + 1) (hkp : k < p)
    (hzero : ∀ n, z ≤ n → n < z + p → pte m₀ D n = 0) :
    Yields (Fails m₀ D free₀ (k + 1) z p k) (Built m₀ D used free₀ data z p k (61 * p / 64))
      (initMemoryRegion m start size) := by
  have hb : Building m₀ D used free₀ m free taken data z p k 0 addr := h.building hk
  obtain ⟨hnodes, hpad, halloc, havail⟩ := blocks_at hspace hstart hsize
  have hlast := toNat_first_add hstart
  have hmem : (start + 16).toNat / 4096 ∈ nodePages z p k := first_mem_nodePages hstart
  simp only [Paging.initMemoryRegion, hpad, UInt32.add_zero, UInt32.sub_zero]
  rw [hb.span.load (nodePages_subset hmem), bind_eq_bind, bind_some]
  refine Yields.bind ((hb.span.put hb.owned nodePages_subset (by omega) (absurd hmem) _).mono
    (absurd hmem) fun _ => And.left) ?_
  intro m1 h1
  rw [← hk]
  exact Building.initNodes hp hspace hstart halloc havail hguard (by omega) hzero _
    ⟨h1.span, hb.owned, hb.same⟩ (by rw [hnodes]; simp only [UInt32.reduceToNat]; omega)
    (by decide) (by simp only [UInt32.reduceToNat]; omega) (by simp)

end

end

end AthenX.Paging
