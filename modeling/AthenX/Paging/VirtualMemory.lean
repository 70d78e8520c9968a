import AthenX.Paging.FreeRange

/-!
# Allocating virtual memory

`sys_allocate_virtual_memory` of `kernel/vmm/vmm.c` takes one page from the stack of free pages, and
maps the whole range to the frames from this page on, which it has not taken.
-/

namespace AthenX.Paging

open List Finset

/-! ### The source -/

/-- The loop of `sys_allocate_virtual_memory` from `offset` on, with at most `n` iterations. -/
def mapFrom (va pa size flags : UInt32) : ℕ → UInt32 → Machine → Option Machine
  | 0, _, m => some m
  | n + 1, offset, m =>
      if offset < size then do
        let m ← map m (va + offset) (pa + offset) flags
        mapFrom va pa size flags n (offset + pageSize) m
      else some m

/-- `sys_allocate_virtual_memory`. There is one iteration for every page. -/
def sysAllocateVirtualMemory (m : Machine) (va size flags : UInt32) :
    Option (UInt32 × Machine) := do
  let size := pageRoundUp size
  let (pa, m) ← pmmAllocPage m
  if pa = 0 then some (0, m)
  else do
    let m ← mapFrom va pa size flags (pgNumFromAddr size).toNat 0 m
    some (va, m)

/-! ### The property -/

/-- The pages of the range, as many as the rounded size has. -/
def sizePages (va size : UInt32) : Finset ℕ :=
  Finset.Ico (va.toNat / 4096) (va.toNat / 4096 + (pageRoundUp size).toNat / 4096)

/-- The frame is that of a page table. -/
def TableFrame (m : Machine) (D f : ℕ) : Prop := ∃ d < 1023, Entry (m.mem D d) f

/-- The frames that the pages are mapped to were taken from the stack, and are no page tables. -/
def Backs (m m' : Machine) (D : ℕ) (pages : Finset ℕ) : Prop :=
  ∀ n ∈ pages, FreeFrame m (frameOf (pte m' D n)) ∧ ¬FreeFrame m' (frameOf (pte m' D n)) ∧
    ¬TableFrame m' D (frameOf (pte m' D n))

/-! ### The loop -/

/-- The address that page `n` is mapped to, if page `a` is mapped to `p`. -/
def backing (p : UInt32) (a n : ℕ) : UInt32 := p + pageAt (n - a)

/-- The first `j` pages from page `a` on are mapped to the frames from that of `p` on. -/
structure Strip (m₀ : Machine) (D : ℕ) (used free₀ : List UInt32) (m : Machine)
    (free taken : List UInt32) (p flags : UInt32) (a j : ℕ) : Prop where
  span : Span m₀ D used free₀ m free taken [p] flags (Finset.Ico a (a + j)) (backing p a)
  tables : ∀ q ∈ taken, q = p ∨ TableFrame m D (frameOf q)

section

variable {m₀ m m' : Machine} {D a j k : ℕ} {used free₀ free taken : List UInt32}
  {p q va size flags : UInt32}

/-- **One iteration** maps the next page. -/
theorem Strip.step (h : Strip m₀ D used free₀ m free taken p flags a j)
    (hva : va.toNat / 4096 = a) (hlow : a + j < 1046527)
    (henough : (missing m₀ D (Finset.Ico a (a + (j + 1)))).card + 1 ≤ free₀.length) :
    ∃ m' free' taken', map m (va + pageAt j) (p + pageAt j) flags = some m' ∧
      Strip m₀ D used free₀ m' free' taken' p flags a (j + 1) := by
  have hpage : (va + pageAt j).toNat / 4096 = a + j := by
    rw [UInt32.toNat_add, toNat_pageAt, pageCount]
    omega
  have hbacking : p + pageAt j = backing p a (a + j) := by
    rw [backing, Nat.add_sub_cancel_left]
  obtain ⟨m', free', taken', hmap, h', htaken, hkeeps⟩ := h.span.map_books
    (show (va + pageAt j).toNat / 4096 < 1046527 by omega) (p + pageAt j) (by
      rw [hpage, Ico_succ, Short, length_singleton]
      omega)
  rw [hpage, Ico_succ, hbacking, Function.update_eq_self] at h'
  refine ⟨m', free', taken', hmap, h', fun q hq => ?_⟩
  rcases htaken q hq with hq | htable
  · rcases h.tables q hq with rfl | ⟨d, hd, hentry⟩
    · exact .inl rfl
    · refine .inr ⟨d, hd, ?_⟩
      rw [hkeeps d (by omega) (ne_zero_of_present hentry.1)]
      exact hentry
  · exact .inr htable

/-- **The loop** maps the pages that are left. -/
theorem Strip.loop (hva : va.toNat / 4096 = a) (hlow : a + k ≤ 1046527)
    (henough : (missing m₀ D (Finset.Ico a (a + k))).card + 1 ≤ free₀.length)
    (hsize : size = pageAt k) (n : ℕ) :
    ∀ {m : Machine} {free taken : List UInt32} {j : ℕ},
      Strip m₀ D used free₀ m free taken p flags a j → j + n = k →
      ∃ m' free' taken', mapFrom va p size flags n (pageAt j) m = some m' ∧
        Strip m₀ D used free₀ m' free' taken' p flags a k := by
  induction n with
  | zero =>
    intro m free taken j h hj
    obtain rfl : j = k := hj
    exact ⟨m, free, taken, rfl, h⟩
  | succ n ih =>
    intro m free taken j h hj
    have hsub : (missing m₀ D (Finset.Ico a (a + (j + 1)))).card ≤
        (missing m₀ D (Finset.Ico a (a + k))).card :=
      missing_mono (Finset.Ico_subset_Ico_right (by omega))
    obtain ⟨m1, free1, taken1, hm1, h1⟩ := h.step hva (by omega) (by omega)
    obtain ⟨m2, free2, taken2, hm2, h2⟩ := ih h1 (by omega)
    refine ⟨m2, free2, taken2, ?_, h2⟩
    have hlt : pageAt j < size := by
      rw [hsize, pageAt_lt, Nat.mod_eq_of_lt, Nat.mod_eq_of_lt]
      · omega
      · rw [pageCount]; omega
      · rw [pageCount]; omega
    rw [← pageAt_add] at hm2
    rw [mapFrom, if_pos hlt, hm1]
    exact hm2

/-! ### The frames -/

section

variable (h : Strip m₀ D used free₀ m free taken p flags a k)

include h

theorem Strip.frame (hf : flags.toNat < 4096) {i : ℕ} (hi : i < k) :
    frameOf (pte m D (a + i)) = frameOf (p + pageAt i) := by
  have hmem : a + i ∈ Finset.Ico a (a + k) := mem_Ico.mpr ⟨by omega, by omega⟩
  have hbelow := h.span.below _ hmem
  rw [h.span.pte _ (by omega), if_pos hmem, (entry_pteOf _ hf).2, backing, Nat.add_sub_cancel_left]

theorem Strip.first (h0 : Supply m₀ D used free₀ []) :
    FreeFrame m₀ (frameOf p) ∧ ¬FreeFrame m (frameOf p) ∧ ¬TableFrame m D (frameOf p) := by
  obtain ⟨hfree, hnot⟩ := h.span.freeFrame h0 mem_cons_self
  refine ⟨hfree, hnot, ?_⟩
  rintro ⟨d, hd, hpresent, hframe⟩
  have hfresh := h.span.supply.fresh p (Supply.mem_data mem_cons_self)
  exact hfresh.2 d hd (ne_zero_of_present hpresent) hframe

theorem Strip.other (h0 : Supply m₀ D used free₀ []) {f : ℕ} (hf : f ≠ frameOf p) :
    ¬(FreeFrame m₀ f ∧ ¬FreeFrame m f ∧ ¬TableFrame m D f) := by
  rintro ⟨hfree, hnot, htable⟩
  rw [h0.pile.freeFrame_iff h0.selfMapped.walks] at hfree
  obtain ⟨q, hq, rfl⟩ := hfree
  rw [h.span.total] at hq
  rcases mem_append.mp hq with hq | hq
  · refine hnot ?_
    rw [h.span.supply.pile.freeFrame_iff h.span.supply.selfMapped.walks]
    exact ⟨q, hq, rfl⟩
  · rcases h.tables q hq with rfl | ht
    · exact hf rfl
    · exact htable ht

end

theorem frameOf_add_one (hp : p.toNat % 4096 = 0) : frameOf (p + pageAt 1) ≠ frameOf p := by
  rw [frameOf_eq, frameOf_eq, UInt32.toNat_add, toNat_pageAt, pageCount]
  omega

/-- **The frames are right** just if there is at most one. -/
theorem Strip.backs_iff_le_one (h : Strip m₀ D used free₀ m free taken p flags a k)
    (h0 : Supply m₀ D used free₀ []) (hf : flags.toNat < 4096) (hp : p.toNat % 4096 = 0) :
    Backs m₀ m D (Finset.Ico a (a + k)) ↔ k ≤ 1 := by
  constructor
  · intro hbacks
    by_contra hlarge
    -- the second page is mapped to a frame that was not taken
    have hframe := h.frame hf (i := 1) (by omega)
    have hsecond := hbacks (a + 1) (mem_Ico.mpr ⟨by omega, by omega⟩)
    rw [hframe] at hsecond
    exact h.other h0 (frameOf_add_one hp) hsecond
  · intro hsmall n hn
    rw [mem_Ico] at hn
    have hframe := h.frame hf (i := 0) (by omega)
    rw [show a + 0 = n by omega, show p + pageAt 0 = p from UInt32.add_zero p] at hframe
    rw [hframe]
    exact h.first h0

theorem toNat_pageRoundUp_eq (size : UInt32) :
    (pageRoundUp size).toNat = 4096 * ((pageRoundUp size).toNat / 4096) := by
  rw [pageRoundUp_eq, toNat_pageAt]
  omega

theorem strip_sysAllocateVirtualMemory (h : Supply m D used (free ++ [p]) []) (hp : p ≠ 0)
    (flags : UInt32) (hlow : va.toNat / 4096 + (pageRoundUp size).toNat / 4096 ≤ 1046527)
    (henough : (missing m D (sizePages va size)).card ≤ free.length) :
    ∃ m' free' taken', sysAllocateVirtualMemory m va size flags = some (va, m') ∧
      Strip m D used (free ++ [p]) m' free' taken' p flags (va.toNat / 4096)
        ((pageRoundUp size).toNat / 4096) := by
  have hsize : pageRoundUp size = pageAt ((pageRoundUp size).toNat / 4096) := by
    rw [← UInt32.toNat_inj, toNat_pageAt, ← Nat.mul_mod_mul_left, ← toNat_pageRoundUp_eq]
    exact (Nat.mod_eq_of_lt (pageRoundUp size).toNat_lt).symm
  obtain ⟨m1, htake, -, -⟩ := h.take
  have hone : ¬Short m D (free ++ [p]) (0 + 1) ∅ := by simp [Short, missing]
  obtain ⟨p', m1', free1, htake', -, h1⟩ :=
    (Span.start h flags (backing p (va.toNat / 4096))).take hone
  cases htake.symm.trans htake'
  have hstart : Strip m D used (free ++ [p]) m1 free1 [p] p flags (va.toNat / 4096) 0 := by
    refine ⟨?_, by simp⟩
    rw [Nat.add_zero, Finset.Ico_self]
    exact h1
  obtain ⟨m2, free2, taken2, hloop, h2⟩ := Strip.loop rfl hlow
    (by rw [length_append]; exact Nat.succ_le_succ henough) hsize _ hstart (Nat.zero_add _)
  refine ⟨m2, free2, taken2, ?_, h2⟩
  simp only [sysAllocateVirtualMemory, htake, Option.bind_eq_bind, Option.bind_some, hp,
    toNat_pgNum]
  rw [show (0 : UInt32) = pageAt 0 from rfl, hloop]
  rfl

/-- **`sys_allocate_virtual_memory` backs a range just if it has at most one page**, from any state
with enough free pages for the page tables. -/
theorem backs_iff (h : Supply m D used (free ++ [p]) []) (hp : p ≠ 0) (hflags : flags < 0x1000)
    (hlow : va.toNat / 4096 + (pageRoundUp size).toNat / 4096 ≤ 1046527)
    (henough : (missing m D (sizePages va size)).card ≤ free.length) :
    ∃ m', sysAllocateVirtualMemory m va size flags = some (va, m') ∧
      (Backs m m' D (sizePages va size) ↔ (pageRoundUp size).toNat ≤ 4096) := by
  obtain ⟨m', free', taken', hcall, hstrip⟩ :=
    strip_sysAllocateVirtualMemory h hp flags hlow henough
  refine ⟨m', hcall, ?_⟩
  rw [sizePages,
    hstrip.backs_iff_le_one h (UInt32.lt_iff_toNat_lt.mp hflags) (h.aligned p (by simp))]
  have := toNat_pageRoundUp_eq size
  omega

end

theorem missing_heapMachine (size : UInt32) (h : (pageRoundUp size).toNat / 4096 ≤ 2) :
    (missing heapMachine 16 (sizePages 0x400000 size)).card ≤
      ((List.range 102).map samplePage).length := by
  have hcard : (sizePages 0x400000 size).card ≤ 2 := by
    rw [sizePages, Nat.card_Ico]
    omega
  have htables : (missing heapMachine 16 (sizePages 0x400000 size)).card ≤
      (sizePages 0x400000 size).card := (card_filter_le _ _).trans card_image_le
  rw [length_map, length_range]
  omega

theorem supply_heapMachine_concat : Supply heapMachine 16 [0x14000] samplePages [] := by
  have h := supply_heapMachine
  rwa [range_succ, map_append] at h

/-- One page is right. -/
theorem backs_heapMachine : Supply heapMachine 16 [0x14000] samplePages [] ∧
    ∃ m', sysAllocateVirtualMemory heapMachine 0x400000 0x1000 2 = some (0x400000, m') ∧
      Backs heapMachine m' 16 (sizePages 0x400000 0x1000) := by
  have hflags : (2 : UInt32) < 0x1000 := by decide
  obtain ⟨m', hcall, hiff⟩ := backs_iff supply_heapMachine_concat (by decide) hflags (by decide)
    (missing_heapMachine 0x1000 (by decide))
  exact ⟨supply_heapMachine_concat, m', hcall, hiff.mpr (by decide)⟩

/-- Two pages are mapped to frames 1126 and 1127, and 1127 was never on the stack. -/
theorem not_backs_heapMachine : Supply heapMachine 16 [0x14000] samplePages [] ∧
    ∃ m', sysAllocateVirtualMemory heapMachine 0x400000 0x2000 2 = some (0x400000, m') ∧
      frameOf (pte m' 16 1025) = 1127 ∧ ¬FreeFrame heapMachine 1127 ∧
      ¬Backs heapMachine m' 16 (sizePages 0x400000 0x2000) := by
  obtain ⟨m', free', taken', hcall, hstrip⟩ := strip_sysAllocateVirtualMemory
    supply_heapMachine_concat (by decide) 2 (by decide) (missing_heapMachine 0x2000 (by decide))
  have hframe : frameOf (pte m' 16 1025) = 1127 :=
    (hstrip.frame (by decide) (i := 1) (by decide)).trans (by decide)
  have hfree : ¬FreeFrame heapMachine 1127 := by
    rw [supply_heapMachine.pile.freeFrame_iff supply_heapMachine.selfMapped.walks]
    rintro ⟨q, hq, hf⟩
    obtain ⟨j, hj, rfl⟩ := mem_map.mp hq
    rw [List.mem_range] at hj
    rw [frameOf_eq, toNat_samplePage hj] at hf
    omega
  refine ⟨supply_heapMachine_concat, m', hcall, hframe, hfree, fun hbacks => ?_⟩
  have hsecond := (hbacks 1025 (by decide)).1
  rw [hframe] at hsecond
  exact hfree hsecond

end AthenX.Paging
