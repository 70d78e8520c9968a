import AthenX.Paging.HeapRegion

/-!
# Which frames back the heap

A frame that backs the heap should have been on the stack of free pages when `init_kheap` was
called, and not be there any more. The pages of the blocks are mapped to the frames of their own
numbers, so they have such frames only if `init_kheap` happens to take these very pages.
-/

namespace AthenX.Paging

open Partial List Finset UInt32

/-- The frames mapped in the region were on the stack in `m`, and have been taken from it. -/
def Backed (m m' : Machine) (zone : UInt32) (size : ℕ) : Prop :=
  ∀ va : UInt32, zone.toNat ≤ va.toNat → va.toNat < zone.toNat + size →
    ∀ f w, m'.translate va = some (f, w) → FreeFrame m f ∧ ¬FreeFrame m' f

/-! ### `init_kheap` -/

/-- `init_kheap` is called with `free` and `zone` on the stack, and nothing mapped in the region
below the kernel's part. -/
structure BeforeHeap (m : Machine) (D : ℕ) (used free : List UInt32) (zone size : UInt32) :
    Prop where
  stocked : Stocked m D used (free ++ [zone]) []
  unmapped : ∀ n, zone.toNat / 4096 ≤ n → n < zone.toNat / 4096 + (heapPages size).toNat →
    pte m D n = 0
  space : zone.toNat + 4096 * (heapPages size).toNat ≤ 0xF0000000
  /-- The subtraction of `pmm_alloc_pages` wraps: it would go on until there is no page left. -/
  wraps : (heapPages size).toNat < 4096 → zone.toNat + 4096 * (free.length + 2) ≤ 0xF0000000

/-- The pages that `init_kheap` takes: one for the start, one for every iteration, and the page
tables. -/
def pagesTaken (m : Machine) (D z p : ℕ) : ℕ :=
  (p - 4096 + 1) + (missing m D (Finset.Ico z (z + (p - 4096 + 1)) ∪ blockPages z p)).card

section

variable {m m' : Machine} {D : ℕ} {used free : List UInt32} {zone size : UInt32}

section

variable (h : BeforeHeap m D used free zone size)

include h

theorem BeforeHeap.zone_aligned : zone.toNat = 4096 * (zone.toNat / 4096) := by
  have hal := h.stocked.aligned zone (by simp)
  omega

/-- **`init_kheap`** maps the nodes to pages it takes, and the blocks to the frames of their own
numbers. -/
theorem initKheap_yields (hp : 4096 ≤ (heapPages size).toNat) :
    Yields (Fails m D (free ++ [zone]) ((heapPages size).toNat - 4096 + 1) (zone.toNat / 4096)
        (heapPages size).toNat ((heapPages size).toNat - 4096))
      (fun r => r.1 = zone ∧ ∃ free' taken data addr,
        data.length = (heapPages size).toNat - 4096 + 1 ∧
        Building m D used (free ++ [zone]) r.2 free' taken data (zone.toNat / 4096)
          (heapPages size).toNat ((heapPages size).toNat - 4096)
          (61 * (heapPages size).toNat / 64) addr)
      (initKheap m size) := by
  have hz := h.zone_aligned
  have hspace := h.space
  have hk : (heapPages size - pageSize).toNat = (heapPages size).toNat - 4096 := by
    rw [UInt32.toNat_sub_of_le]
    · rfl
    · rw [le_iff_toNat_le]
      exact hp
  have hsize : (heapPages size * pageSize).toNat = 4096 * (heapPages size).toNat := by
    rw [UInt32.toNat_mul, toNat_pageSize]
    omega
  have halloc := Laid.pmmAllocPages (heapPages size) h.stocked hz (by omega)
  rw [hk] at halloc
  refine Yields.bind (halloc.mono ?_ fun _ => id) ?_
  · exact fun hs => .inl (hs.mono le_rfl subset_union_left)
  rintro ⟨_, m1⟩ ⟨rfl, free1, taken1, data, addr1, hlen, h1⟩
  refine Yields.bind (h1.initMemoryRegion (by omega) (by omega) hz hsize h.stocked.guard hlen
    (by omega) h.unmapped) ?_
  rintro m2 ⟨free2, taken2, addr2, h2⟩
  exact Yields.of_some ⟨rfl, free2, taken2, data, addr2, hlen, h2⟩

theorem le_heapPages_of_returns {r : UInt32 × Machine} (hret : initKheap m size = some r) :
    4096 ≤ (heapPages size).toNat := by
  by_contra hlt
  have hwraps := h.wraps (by omega)
  have hz := h.zone_aligned
  have hlow : 4096 * (zone.toNat / 4096 + (free.length + 2)) ≤ 0xF0000000 := by
    rw [Nat.mul_add, ← hz]
    exact hwraps
  have hmany : free.length < (heapPages size - pageSize).toNat := by
    rw [UInt32.toNat_sub, toNat_pageSize]
    omega
  have hnone := pmmAllocPages_none (heapPages size) h.stocked hz (hlow.trans (by decide)) hmany
  rw [initKheap, hnone] at hret
  cases hret

end

theorem Building.backed_iff_taken {free0 free' taken data : List UInt32} {z p k : ℕ}
    {addr : ℕ → UInt32}
    (h : Building m D used free0 m' free' taken data z p k (61 * p / 64) addr)
    (h0 : Stocked m D used free0 []) (hz : zone.toNat = 4096 * z)
    (hzero : ∀ n, z ≤ n → n < z + p → pte m D n = 0) (hspace : 4096 * (z + p) ≤ 0xF0000000) :
    Backed m m' zone (4096 * p) ↔ ∀ n ∈ blockPages z p, ∃ q ∈ taken, frameOf q = n := by
  -- a frame was free and is not any more when it is the frame of a page taken
  have htaken : ∀ f, FreeFrame m f ∧ ¬FreeFrame m' f ↔ ∃ q ∈ taken, frameOf q = f := by
    intro f
    rw [h0.pile.freeFrame_iff h0.selfMapped.walks,
      h.span.supply.pile.freeFrame_iff h.span.supply.selfMapped.walks, h.span.total]
    have hnd := (nodup_append.mp h0.nodup).2.1
    rw [append_nil, h.span.total] at hnd
    have hal : ∀ q ∈ free' ++ taken, q.toNat % 4096 = 0 := by
      intro q hq
      rw [← h.span.total] at hq
      exact h0.aligned q (by simp [hq])
    constructor
    · rintro ⟨⟨q, hq, hf⟩, hno⟩
      refine ⟨q, (mem_append.mp hq).resolve_left fun hq' => hno ⟨q, hq', hf⟩, hf⟩
    · rintro ⟨q, hq, hf⟩
      refine ⟨⟨q, mem_append_right _ hq, hf⟩, ?_⟩
      rintro ⟨r, hr, hrf⟩
      have heq := eq_of_frameOf_eq (hal r (mem_append_left _ hr))
        (hal q (mem_append_right _ hq)) (hrf.trans hf.symm)
      exact (nodup_append.mp hnd).2.2 r hr q hq heq
  constructor
  · intro hb n hn
    rw [← htaken]
    have hn' := hn
    simp only [blockPages, mem_Ioc] at hn'
    have hva : (UInt32.ofNat (4096 * n)).toNat = 4096 * n := by
      rw [toNat_ofNat']
      omega
    have hpage : (UInt32.ofNat (4096 * n)).toNat / 4096 = n := by omega
    have hmem : (UInt32.ofNat (4096 * n)).toNat / 4096 ∈ Finset.Ico z (z + (k + 1)) ∪
        Finset.Ioc (z + 3 * p / 128) (z + 3 * p / 128 + 61 * p / 64) := by
      rw [hpage]
      exact Finset.mem_union_right _ hn
    have htr := h.span.translate hmem
    rw [hpage, h.same n hn] at htr
    exact hb _ (by omega) (by omega) _ _ htr
  · intro hall va hlo hhi f w htr
    rw [htaken]
    by_cases hmem : va.toNat / 4096 ∈ Finset.Ico z (z + (k + 1)) ∪
        Finset.Ioc (z + 3 * p / 128) (z + 3 * p / 128 + 61 * p / 64)
    · rw [h.span.translate hmem] at htr
      cases htr
      by_cases hblock : va.toNat / 4096 ∈ blockPages z p
      · rw [h.same _ hblock]
        exact hall _ hblock
      · have hnode : va.toNat / 4096 ∈ nodePages z p k :=
          mem_sdiff.mpr ⟨(mem_union.mp hmem).resolve_right hblock, hblock⟩
        obtain ⟨q, hq, hf⟩ := h.owned.own _ hnode
        exact ⟨q, h.span.subset hq, hf.symm⟩
    · rw [h.span.translate_none (by omega) hmem (hzero _ (by omega) (by omega))] at htr
      cases htr

/-- **The heap is backed by its own frames exactly when it takes the pages it maps by number**: the
frames of the pages with blocks are among the `pagesTaken` pages it takes. -/
theorem backed_iff (h : BeforeHeap m D used free zone size) {start : UInt32}
    (hret : initKheap m size = some (start, m')) :
    start = zone ∧ (Backed m m' start (4096 * (heapPages size).toNat) ↔
      ∀ n ∈ blockPages (zone.toNat / 4096) (heapPages size).toNat,
        ∃ q ∈ (free ++ [zone]).drop ((free ++ [zone]).length -
          pagesTaken m D (zone.toNat / 4096) (heapPages size).toNat), frameOf q = n) := by
  have hp := le_heapPages_of_returns h hret
  have hspace := h.space
  have hz := h.zone_aligned
  have hres := (initKheap_yields h hp).of_eq_some hret
  obtain ⟨rfl, free', taken, data, addr, hlen, hb⟩ := hres
  have hdrop : (free ++ [start]).drop ((free ++ [start]).length -
      pagesTaken m D (start.toNat / 4096) (heapPages size).toNat) = taken := by
    have hcount := hb.span.count
    rw [hlen] at hcount
    have hlength : (free ++ [start]).length = free'.length + taken.length := by
      rw [hb.span.total, length_append]
    rw [show (free ++ [start]).length - pagesTaken m D (start.toNat / 4096) (heapPages size).toNat
      = free'.length by rw [pagesTaken, blockPages, ← hcount]; omega, hb.span.total]
    exact drop_left
  rw [hdrop]
  exact ⟨rfl, hb.backed_iff_taken h.stocked hz h.unmapped (by omega)⟩

end

/-! ### A machine with 103 free pages -/

/-- Page `1024 + j`. -/
def samplePage (j : ℕ) : UInt32 := UInt32.ofNat ((1024 + j) * 4096)

/-- The sample machine with the pages `1024` to `1126` on its stack. -/
def heapMachine : Machine :=
  { sampleMachine with
    mem := fun f i => if f = 20 then if i < 103 then samplePage i else 0 else sampleMachine.mem f i
    pmmStackLoc := pmmStackStart + 412 }

/-- The pages on its stack. -/
abbrev samplePages : List UInt32 := (List.range 102).map samplePage ++ [samplePage 102]

theorem toNat_samplePage {j : ℕ} (hj : j < 103) : (samplePage j).toNat = (1024 + j) * 4096 := by
  rw [samplePage, toNat_ofNat']
  omega

theorem mem_samplePages {p : UInt32} (hp : p ∈ [0x14000] ++ (List.range 103).map samplePage) :
    p.toNat = 0x14000 ∨ ∃ j < 103, p.toNat = (1024 + j) * 4096 := by
  rcases mem_cons.mp hp with rfl | hp
  · exact .inl rfl
  · obtain ⟨j, hj, rfl⟩ := mem_map.mp hp
    rw [List.mem_range] at hj
    exact .inr ⟨j, hj, toNat_samplePage hj⟩

theorem holds_heapMachine : Holds heapMachine 16 [0x14000] ((List.range 103).map samplePage) where
  active := rfl
  layout :=
    { selfMapped := selfMapped_sampleMachine.congr ⟨rfl, rfl, rfl, rfl, rfl⟩ (fun _ _ => rfl) rfl
      active := rfl
      location := by decide
      stackTable := by decide
      low_dir := by decide
      low_table := by
        intro i hi h
        rcases sampleMachine_directory hi h with rfl | rfl <;> decide }
  max := by decide
  loc := by rw [length_map]; rfl
  room := by simp
  capacity := by decide
  nodup := by
    refine nodup_cons.mpr ⟨?_, nodup_range.map_on ?_⟩
    · intro hc
      obtain ⟨j, hj, heq⟩ := mem_map.mp hc
      have hnat := toNat_samplePage (List.mem_range.mp hj)
      rw [heq, show (0x14000 : UInt32).toNat = 81920 by decide] at hnat
      omega
    · intro i hi j hj heq
      have hi' := toNat_samplePage (List.mem_range.mp hi)
      rw [heq, toNat_samplePage (List.mem_range.mp hj)] at hi'
      omega
  aligned := by
    intro p hp
    rcases mem_samplePages hp with hp | ⟨j, -, hp⟩ <;> omega
  high := by
    intro p hp
    have hloc : heapMachine.pmmLocation.toNat = 0x13000 := by decide
    rcases mem_samplePages hp with hp | ⟨j, -, hp⟩ <;> omega
  backed := by
    intro k q hq
    obtain ⟨rfl, rfl⟩ : k = 0 ∧ q = 0x14000 := by
      cases k with
      | zero => exact ⟨rfl, by simpa using hq.symm⟩
      | succ k => simp at hq
    unfold Entry
    decide
  content := by
    intro j p hp
    rw [List.getElem?_map, Option.map_eq_some_iff] at hp
    obtain ⟨i, hi, rfl⟩ := hp
    obtain ⟨hj, rfl⟩ := List.getElem?_eq_some_iff.mp hi
    rw [length_range] at hj
    refine ⟨0x14000, by rw [show j / 1024 = 0 by omega]; rfl, ?_⟩
    rw [getElem_range, show j % 1024 = j by omega]
    show (if j < 103 then samplePage j else 0) = samplePage j
    rw [if_pos hj]

theorem beforeHeap_heapMachine : BeforeHeap heapMachine 16 [0x14000]
    ((List.range 102).map samplePage) (samplePage 102) 42926080 := by
  have hpages : (heapPages 42926080).toNat = 4192 := by decide
  have hzone : (samplePage 102).toNat = 1126 * 4096 := toNat_samplePage (by decide)
  have hlist : (List.range 102).map samplePage ++ [samplePage 102] =
      (List.range 103).map samplePage := by
    rfl
  constructor
  case stocked =>
    rw [hlist]
    exact ⟨holds_heapMachine.supply, by decide⟩
  case unmapped =>
    intro n _ hn
    rw [hzone] at hn
    have hzero : heapMachine.mem 16 (n / 1024) = 0 := by
      by_contra hc
      rcases sampleMachine_directory (by omega) hc with hd | hd <;> omega
    rw [pte, if_pos hzero]
  case space => rw [hpages]; decide
  case wraps => rw [hpages]; intro hc; omega

/-- There are enough pages for `init_kheap` to come back. -/
theorem returns_heapMachine : ∃ m', initKheap heapMachine 42926080 = some (samplePage 102, m') ∧
    ∃ free taken data addr, Building heapMachine 16 [0x14000] samplePages m' free
      taken data 1126 4192 96 3995 addr := by
  have hpages : (heapPages 42926080).toNat = 4192 := by decide
  have hyields := initKheap_yields beforeHeap_heapMachine (by rw [hpages]; decide)
  have hfits : ¬Fails heapMachine 16 samplePages 97 1126 4192 96 := by
    rintro (hshort | hnodes)
    · have hcard : (missing heapMachine 16
          (Finset.Ico 1126 (1126 + (96 + 1)) ∪ blockPages 1126 4192)).card ≤ 5 := by
        have hsub : missing heapMachine 16
            (Finset.Ico 1126 (1126 + (96 + 1)) ∪ blockPages 1126 4192) ⊆ Finset.Icc 1 5 := by
          intro d hd
          obtain ⟨n, hn, rfl⟩ := Finset.mem_image.mp (Finset.mem_filter.mp hd).1
          simp only [blockPages, mem_union, mem_Ico, mem_Ioc] at hn
          rw [mem_Icc]
          omega
        simpa using card_le_card hsub
      rw [Short, length_append, length_map, length_range] at hshort
      omega
    · omega
  obtain ⟨⟨start, m'⟩, heq, hstart, free, taken, data, addr, -, hb⟩ := hyields.exists_of_not hfits
  dsimp only at hstart
  rw [hstart] at heq
  exact ⟨m', heq, free, taken, data, addr, hb⟩

/-- `init_kheap` comes back on this machine. -/
theorem backed_iff_heapMachine :
    BeforeHeap heapMachine 16 [0x14000] ((List.range 102).map samplePage) (samplePage 102)
      42926080 ∧
    ∃ m', initKheap heapMachine 42926080 = some (samplePage 102, m') ∧
      (Backed heapMachine m' (samplePage 102) (4096 * (heapPages 42926080).toNat) ↔
        ∀ n ∈ blockPages ((samplePage 102).toNat / 4096) (heapPages 42926080).toNat,
          ∃ q ∈ ((List.range 102).map samplePage ++ [samplePage 102]).drop
            (((List.range 102).map samplePage ++ [samplePage 102]).length -
              pagesTaken heapMachine 16 ((samplePage 102).toNat / 4096)
                (heapPages 42926080).toNat), frameOf q = n) := by
  obtain ⟨m', hret, -⟩ := returns_heapMachine
  exact ⟨beforeHeap_heapMachine, m', hret, (backed_iff beforeHeap_heapMachine hret).2⟩

/-- Page `1225` holds blocks, and the frame of this number was never on the stack. -/
theorem not_backed_heapMachine : ∃ m',
    initKheap heapMachine 42926080 = some (samplePage 102, m') ∧
      ¬Backed heapMachine m' (samplePage 102) (4096 * (heapPages 42926080).toNat) := by
  have hpages : (heapPages 42926080).toNat = 4192 := by decide
  have h := beforeHeap_heapMachine
  have hzero := h.unmapped
  have hal := h.zone_aligned
  rw [hpages] at hzero ⊢
  obtain ⟨m', hret, free, taken, data, addr, hb⟩ := returns_heapMachine
  refine ⟨m', hret, ?_⟩
  rw [hb.backed_iff_taken h.stocked hal hzero (by decide)]
  intro hall
  obtain ⟨q, hq, hf⟩ := hall 1225 (by simp only [blockPages, mem_Ioc]; omega)
  -- only the pages 1024 to 1126 were on the stack
  have hfree : q ∈ samplePages := by
    rw [hb.span.total]
    exact mem_append_right _ hq
  obtain ⟨j, hj, rfl⟩ : ∃ j < 103, samplePage j = q := by
    rcases mem_append.mp hfree with hq' | hq'
    · obtain ⟨j, hj, rfl⟩ := mem_map.mp hq'
      exact ⟨j, Nat.lt_succ_of_lt (List.mem_range.mp hj), rfl⟩
    · exact ⟨102, by decide, (List.mem_singleton.mp hq').symm⟩
  rw [frameOf_eq, toNat_samplePage hj] at hf
  omega

end AthenX.Paging
