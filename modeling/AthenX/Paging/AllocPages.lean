import AthenX.Paging.HeapFrames

/-!
# How many pages `pmm_alloc_pages` allocates

`pmm_alloc_pages(num_pages)` should allocate `num_pages` consecutive pages. It maps one, and one
more in each iteration from `0` to `num_pages - PAGE_SIZE`, an unsigned difference. So the number is
`num_pages - 4095` from `4096` on, and close to `2 ^ 32` if there are fewer.
-/

namespace AthenX.Paging

open Finset

/-- The page tables that `m'` has and `m` has not. -/
def newTables (m m' : Machine) (D : ℕ) : Finset ℕ :=
  (Finset.range 1023).filter fun d => m.mem D d = 0 ∧ m'.mem D d ≠ 0

/-- The stack has lost `k` pages besides those for page tables; the `k` pages from `start` on are
mapped to distinct frames of it, and the others below the window as before. -/
structure Provides (m m' : Machine) (D : ℕ) (start : UInt32) (k : ℕ) : Prop where
  taken : m.pmmStackLoc.toNat = m'.pmmStackLoc.toNat + 4 * (k + (newTables m m' D).card)
  mapped : ∃ frame : ℕ → ℕ, (∀ i < k, ∀ j < k, frame i = frame j → i = j) ∧
    ∀ i < k, FreeFrame m (frame i) ∧ ¬FreeFrame m' (frame i) ∧
      ∀ va : UInt32, va.toNat / 4096 = start.toNat / 4096 + i →
        m'.translate va = some (frame i, wordOf va)
  other : ∀ va : UInt32, va < kernelTablesVirtual →
    ¬(start.toNat / 4096 ≤ va.toNat / 4096 ∧ va.toNat / 4096 < start.toNat / 4096 + k) →
    getMapping m' va = getMapping m va

/-- `pmm_alloc_pages(numPages)` returns, and allocates `k` consecutive pages. -/
def Allocates (m : Machine) (D : ℕ) (numPages : UInt32) (k : ℕ) : Prop :=
  ∃ start m', pmmAllocPages m numPages = some (start, m') ∧ Provides m m' D start k

section

variable {m m' : Machine} {D z : ℕ} {used free free0 taken data : List UInt32}
  {zone flags : UInt32} {pages : Finset ℕ} {addr : ℕ → UInt32}

theorem Span.newTables_eq (h : Span m D used free0 m' free taken data flags pages addr) :
    newTables m m' D = missing m D pages := by
  ext d
  simp only [newTables, missing, mem_filter, mem_range]
  constructor
  · rintro ⟨hd, hz, hne⟩
    refine ⟨?_, hz⟩
    by_contra hc
    exact hne ((h.directory d hd).mpr ⟨hz, hc⟩)
  · rintro ⟨hmem, hz⟩
    have hd : d < 1023 := by
      obtain ⟨n, hn, rfl⟩ := mem_image.mp hmem
      have hbelow := h.below n hn
      omega
    exact ⟨hd, hz, fun hc => ((h.directory d hd).mp hc).2 hmem⟩

/-- **The pages laid out are the pages allocated.** -/
theorem Laid.provides (h0 : Stocked m D used free0 [])
    (h : Laid m D used free0 m' free taken data z addr) (hz : zone.toNat = 4096 * z) :
    Provides m m' D zone data.length where
  taken := by
    have hlength := h.span.length_free
    rw [h0.pile.loc, h.span.supply.pile.loc, h.span.newTables_eq]
    omega
  mapped := by
    have hmem : ∀ i < data.length, z + i ∈ Finset.Ico z (z + data.length) := by
      intro i hi
      rw [mem_Ico]
      omega
    refine ⟨fun i => frameOf (addr (z + i)), ?_, ?_⟩
    · intro i hi j hj hij
      have heq := h.owned.inj _ (hmem i hi) _ (hmem j hj) hij
      omega
    · intro i hi
      obtain ⟨p, hp, hf⟩ := h.owned.own _ (hmem i hi)
      dsimp only at hf ⊢
      rw [hf]
      obtain ⟨hbefore, hafter⟩ := h.span.freeFrame h0.supply hp
      refine ⟨hbefore, hafter, fun va hva => ?_⟩
      have hpage : va.toNat / 4096 = z + i := by omega
      have hbelow := h.span.below _ (hmem i hi)
      rw [← hf]
      apply h.span.supply.selfMapped.translate_of_entry
      rw [hpage, h.span.pte (z + i) (by omega), if_pos (hmem i hi)]
      exact entry_pteOf (addr (z + i)) (by decide)
  other := by
    intro va hva hout
    refine h.span.getMapping_other h0.selfMapped hva ?_
    rw [mem_Ico]
    omega

/-- **The number of pages allocated**, given that the loop stays below the stack. -/
theorem Stocked.allocates_iff (h : Stocked m D used (free ++ [zone]) []) (numPages : UInt32)
    (hspace : zone.toNat + 4096 * min ((numPages - pageSize).toNat + 1) (free.length + 2) ≤
      0xFF7FE000) (k : ℕ) :
    Allocates m D numPages k ↔ k = (numPages - pageSize).toNat + 1 ∧
      k + (missing m D (Finset.Ico (zone.toNat / 4096) (zone.toNat / 4096 + k))).card ≤
        free.length + 1 := by
  obtain ⟨z, hz⟩ := Nat.dvd_of_mod_eq_zero (h.aligned zone (by simp))
  rw [show zone.toNat / 4096 = z by omega]
  have hnone : pmmAllocPages m numPages = none → ¬Allocates m D numPages k := by
    rintro hret ⟨start, m', hm', -⟩
    rw [hret] at hm'
    cases hm'
  rcases Nat.lt_or_ge free.length (numPages - pageSize).toNat with hmany | hfew
  · -- the loop takes more pages than there are
    rw [Nat.min_eq_right (by omega)] at hspace
    rw [hz, ← Nat.mul_add] at hspace
    refine iff_of_false (hnone ?_) fun hk => by omega
    exact pmmAllocPages_none numPages h hz hspace hmany
  · rw [Nat.min_eq_left (by omega)] at hspace
    rw [hz, ← Nat.mul_add] at hspace
    rcases Laid.pmmAllocPages numPages h hz hspace with ⟨hret, hshort⟩ | ⟨⟨_, m'⟩, hret, hres⟩
    · refine iff_of_false (hnone hret) ?_
      rintro ⟨rfl, henough⟩
      rw [Short, List.length_append, List.length_singleton] at hshort
      omega
    · obtain ⟨rfl, free', taken', data', addr', hlen, hlaid⟩ := hres
      have hprovides := hlaid.provides h hz
      have hlength := hlaid.span.length_free
      rw [hlen] at hprovides hlength
      rw [List.length_append, List.length_singleton] at hlength
      constructor
      · rintro ⟨start, m'', hm'', hk⟩
        rw [hret] at hm''
        cases hm''
        have htaken := hprovides.taken.symm.trans hk.taken
        dsimp only at htaken
        obtain rfl : k = (numPages - pageSize).toNat + 1 := by omega
        exact ⟨rfl, by omega⟩
      · rintro ⟨rfl, -⟩
        exact ⟨_, m', hret, hprovides⟩

/-- **`pmm_alloc_pages` never allocates the number of pages it is asked for**: it is the number of
iterations, computed with wrap-around, and one more, if there are as many pages. -/
theorem pmmAllocPages_allocates (h : Stocked m D used (free ++ [zone]) []) (numPages : UInt32)
    (hspace : zone.toNat + 4096 * min ((numPages - pageSize).toNat + 1) (free.length + 2) ≤
      0xFF7FE000) :
    (∀ k, Allocates m D numPages k ↔ k = (numPages - pageSize).toNat + 1 ∧
      k + (missing m D (Finset.Ico (zone.toNat / 4096) (zone.toNat / 4096 + k))).card ≤
        free.length + 1) ∧
    ¬Allocates m D numPages numPages.toNat := by
  have hiff := h.allocates_iff numPages hspace
  refine ⟨hiff, fun hasked => ?_⟩
  have hcount := ((hiff _).mp hasked).1
  rw [UInt32.toNat_sub, toNat_pageSize] at hcount
  omega

end

theorem stocked_heapMachine : Stocked heapMachine 16 [0x14000] samplePages [] :=
  beforeHeap_heapMachine.stocked

/-- 4192 pages are asked for and 97 are allocated. -/
theorem allocates_heapMachine : Stocked heapMachine 16 [0x14000] samplePages [] ∧
    Allocates heapMachine 16 4192 97 ∧ ¬Allocates heapMachine 16 4192 4192 := by
  have hzone : (samplePage 102).toNat = 1126 * 4096 := toNat_samplePage (by decide)
  have hcount : ((4192 : UInt32) - pageSize).toNat + 1 = 97 := by decide
  have hfree : ((List.range 102).map samplePage).length = 102 := by simp
  have htables : (missing heapMachine 16 (Finset.Ico 1126 (1126 + 97))).card ≤ 1 := by
    have hsub : missing heapMachine 16 (Finset.Ico 1126 (1126 + 97)) ⊆ {1} := by
      intro d hd
      obtain ⟨n, hn, rfl⟩ := mem_image.mp (mem_filter.mp hd).1
      rw [mem_Ico] at hn
      rw [mem_singleton]
      omega
    simpa using card_le_card hsub
  have hall := pmmAllocPages_allocates stocked_heapMachine 4192 (by rw [hfree]; decide)
  rw [hzone, show 1126 * 4096 / 4096 = 1126 by decide] at hall
  exact ⟨stocked_heapMachine, (hall.1 97).mpr ⟨rfl, by omega⟩, hall.2⟩

/-- With 103 free pages, a call for one page would take `2 ^ 32 - 4095` more. -/
theorem not_allocates_heapMachine : Stocked heapMachine 16 [0x14000] samplePages [] ∧
    ¬Allocates heapMachine 16 1 1 ∧ pmmAllocPages heapMachine 1 = none := by
  have hzone : (samplePage 102).toNat = 4096 * 1126 := toNat_samplePage (by decide)
  have hcount : ((1 : UInt32) - pageSize).toNat = 4294963201 := by decide
  have hfree : ((List.range 102).map samplePage).length = 102 := by simp
  have hnone := pmmAllocPages_none 1 stocked_heapMachine hzone (by rw [hfree]; decide)
    (by rw [hfree]; decide)
  refine ⟨stocked_heapMachine, ?_, hnone⟩
  rintro ⟨start, m', hm', -⟩
  rw [hnone] at hm'
  cases hm'

end AthenX.Paging
