import AthenX.Paging.HeapFrames

/-!
# Mapping a range of addresses

`allocate_range` of `kernel/vmm/vmm.c` makes sure that a range is mapped: a mapped page gets the
flags and keeps its frame, and any other one gets a page from the stack, which `map` also takes page
tables from. Outside the range only the window shows a change, that of new page tables.
-/

namespace AthenX.Paging

/-! ### The source -/

/-- `PAGE_ROUND_DOWN`. -/
def pageRoundDown (x : UInt32) : UInt32 := x &&& pageAddrMask
/-- `PAGE_ROUND_UP`. -/
def pageRoundUp (x : UInt32) : UInt32 := (x + pageSize - 1) &&& pageAddrMask

/-- The body of the loop of `allocate_range`. -/
def allocatePage (m : Machine) (va flags : UInt32) : Option Machine := do
  let r ← getMapping m va
  match r with
  -- if exists update flags
  | some pa => map m va pa flags
  -- if doesn't exists allocate
  | none => do
      let (p, m) ← pmmAllocPage m
      map m va p flags

/-- The loop of `allocate_range` from `va` on, with at most `n` iterations. -/
def allocateFrom (vaEnd flags : UInt32) : ℕ → UInt32 → Machine → Option Machine
  | 0,     _,  m => some m
  | n + 1, va, m =>
      if va < vaEnd then do
        let m ← allocatePage m va flags
        allocateFrom vaEnd flags n (va + pageSize) m
      else some m

/-- `allocate_range`, with at most one iteration for every page. -/
def allocateRange (m : Machine) (vaStart vaEnd flags : UInt32) : Option (UInt32 × Machine) := do
  let vaStart := pageRoundDown vaStart
  let vaEnd := pageRoundUp vaEnd
  let m ← allocateFrom vaEnd flags (pgNumFromAddr vaEnd).toNat vaStart m
  some (vaEnd, m)

/-! ### The property -/

/-- The pages from that of `vaStart` to the last one that starts before `vaEnd`. -/
def rangePages (vaStart vaEnd : UInt32) : Finset ℕ :=
  Finset.Ico (vaStart.toNat / 4096) ((vaEnd.toNat + 4095) / 4096)

/-- The pages that are not mapped in `m`. -/
def unmapped (m : Machine) (D : ℕ) (pages : Finset ℕ) : Finset ℕ :=
  pages.filter fun n => pte m D n = 0

/-- There is a free page for every page and every page table that is missing. -/
def Affords (m : Machine) (D : ℕ) (free : List UInt32) (pages : Finset ℕ) : Prop :=
  (unmapped m D pages).card + (missing m D pages).card ≤ free.length

/-- From `m` to `m'` the pages `pages` have been mapped with `flags`. -/
structure Covers (m m' : Machine) (D : ℕ) (pages : Finset ℕ) (flags : UInt32) : Prop where
  /-- The flags are those asked for and `PAGE_PRESENT`. -/
  flags : ∀ n ∈ pages, pte m' D n &&& pageFlagsMask = flags ||| pagePresent
  /-- A page that was mapped keeps its frame. -/
  kept : ∀ n ∈ pages, pte m D n ≠ 0 → frameOf (pte m' D n) = frameOf (pte m D n)
  /-- A page that was not mapped gets a frame that was free. -/
  fresh : ∀ n ∈ pages, pte m D n = 0 → FreeFrame m (frameOf (pte m' D n))
  /-- No two of them get the same frame. -/
  distinct : ∀ a ∈ pages, ∀ b ∈ pages, pte m D a = 0 → pte m D b = 0 →
    frameOf (pte m' D a) = frameOf (pte m' D b) → a = b
  /-- The other pages keep their mapping. -/
  other : ∀ va, va < kernelTablesVirtual → va.toNat / 4096 ∉ pages →
    getMapping m' va = getMapping m va
  /-- A page of the window keeps its mapping, and is mapped just if its page table exists now. -/
  window : ∀ va, kernelTablesVirtual ≤ va →
    (getMapping m va ≠ some none → getMapping m' va = getMapping m va) ∧
    (getMapping m' va ≠ some none ↔ getMapping m va ≠ some none ∨
      ∃ n ∈ pages, n / 1024 = (pgtabIdxFromAddr va).toNat)

/-! ### The loop -/

/-- The first `j` pages from page `a` on have been mapped. -/
structure Filled (m₀ : Machine) (D : ℕ) (used free₀ : List UInt32) (m : Machine)
    (free taken data : List UInt32) (flags : UInt32) (a j : ℕ) (addr : ℕ → UInt32) : Prop where
  span : Span m₀ D used free₀ m free taken data flags (Finset.Ico a (a + j)) addr
  count : data.length = (unmapped m₀ D (Finset.Ico a (a + j))).card
  kept : ∀ n ∈ Finset.Ico a (a + j), pte m₀ D n ≠ 0 → frameOf (addr n) = frameOf (pte m₀ D n)
  owned : Owned data (unmapped m₀ D (Finset.Ico a (a + j))) fun n => frameOf (addr n)

variable {n : ℕ} {e va vaEnd : UInt32}

section

variable {m₀ m m' : Machine} {D a j : ℕ} {used free₀ free taken data : List UInt32}
  {flags : UInt32} {pages : Finset ℕ} {addr : ℕ → UInt32}

theorem Affords.mono {pages' : Finset ℕ} (h : Affords m₀ D free₀ pages') (hs : pages ⊆ pages') :
    Affords m₀ D free₀ pages :=
  (Nat.add_le_add (Finset.card_le_card (Finset.filter_subset_filter _ hs))
    (missing_mono hs)).trans h

theorem unmapped_insert (hn : n ∉ pages) (hz : pte m₀ D n = 0) :
    unmapped m₀ D (insert n pages) = insert n (unmapped m₀ D pages) ∧
      (unmapped m₀ D (insert n pages)).card = (unmapped m₀ D pages).card + 1 := by
  have heq : unmapped m₀ D (insert n pages) = insert n (unmapped m₀ D pages) := by
    rw [unmapped, Finset.filter_insert, if_pos hz, unmapped]
  refine ⟨heq, ?_⟩
  rw [heq]
  exact Finset.card_insert_of_notMem fun hc => hn (Finset.mem_filter.mp hc).1

theorem frameOf_reading (hva : va.toNat % 4096 = 0) :
    frameOf ((e &&& pageAddrMask) + (va &&& pageFlagsMask)) = frameOf e := by
  have hoff : (va &&& pageFlagsMask).toNat = 0 := by
    rw [pageFlagsMask, Word32.toNat_offset]
    exact hva
  rw [frameOf_eq, frameOf_eq, UInt32.toNat_add, pageAddrMask, Word32.toNat_aligned]
  have hlt := e.toNat_lt
  omega

theorem reading_eq_none : reading e va = none ↔ e = 0 := by
  rw [reading]
  split <;> simp_all

theorem Span.table_ne_iff (h : Span m₀ D used free₀ m free taken data flags pages addr)
    (h0 : SelfMapped m₀ D) {d : ℕ} (hd : d < 1024) :
    m.mem D d ≠ 0 ↔ m₀.mem D d ≠ 0 ∨ d ∈ pages.image (· / 1024) := by
  rcases Nat.lt_or_ge d 1023 with hlt | hge
  · rw [ne_eq, h.directory d hlt, not_and_or, not_not]
  · -- the last entry is the directory itself
    obtain rfl : d = 1023 := by omega
    exact iff_of_true (ne_zero_of_present h.supply.selfMapped.self.1)
      (.inl (ne_zero_of_present h0.self.1))

theorem Filled.start (h : Supply m₀ D used free₀ []) (flags : UInt32) (a : ℕ) :
    Filled m₀ D used free₀ m₀ free₀ [] [] flags a 0 fun _ => 0 where
  span := by
    rw [Nat.add_zero, Finset.Ico_self]
    exact Span.start h flags _
  count := by simp [unmapped]
  kept := by simp
  owned := by
    exact ⟨by simp [unmapped], by simp [unmapped]⟩

section

variable (h : Filled m₀ D used free₀ m free taken data flags a j addr)

include h

theorem Filled.kept_insert {pa : UInt32}
    (hpa : pte m₀ D (a + j) ≠ 0 → frameOf pa = frameOf (pte m₀ D (a + j))) :
    ∀ n ∈ Finset.Ico a (a + (j + 1)), pte m₀ D n ≠ 0 →
      frameOf (Function.update addr (a + j) pa n) = frameOf (pte m₀ D n) := by
  intro n hn hne
  rw [← Ico_succ, Finset.mem_insert] at hn
  rcases eq_or_ne n (a + j) with rfl | hnj
  · rw [Function.update_self]
    exact hpa hne
  · rw [Function.update_of_ne hnj]
    exact h.kept n (hn.resolve_left hnj) hne

/-- What `get_mapping` answers for the next page. -/
theorem Filled.getMapping_next (hpage : va.toNat / 4096 = a + j) (hlow : a + j < 1046527) :
    getMapping m va = some (reading (pte m₀ D (a + j)) va) := by
  rw [getMapping_eq h.span.supply.selfMapped, hpage, h.span.pte _ (by omega), if_neg (by simp)]

theorem Filled.step_new (hpage : va.toNat / 4096 = a + j) (hlow : a + j < 1046527)
    (henough : Affords m₀ D free₀ (Finset.Ico a (a + (j + 1)))) (hz : pte m₀ D (a + j) = 0) :
    ∃ m' free' taken' data' addr', allocatePage m va flags = some m' ∧
      Filled m₀ D used free₀ m' free' taken' data' flags a (j + 1) addr' := by
  have hnew : a + j ∉ Finset.Ico a (a + j) := by simp
  obtain ⟨hinsert, hcard⟩ := unmapped_insert hnew hz
  rw [Ico_succ] at hinsert hcard
  have hmissing : (missing m₀ D (Finset.Ico a (a + j))).card ≤
      (missing m₀ D (Finset.Ico a (a + (j + 1)))).card :=
    missing_mono (Finset.Ico_subset_Ico_right (by omega))
  have hcount := h.count
  rw [Affords] at henough
  obtain ⟨p, m1, free1, htake, hp, h1⟩ := h.span.take (by rw [Short]; omega)
  obtain ⟨m2, free2, taken2, hmap, h2⟩ := h1.map (show va.toNat / 4096 < 1046527 by omega) p (by
    rw [hpage, Ico_succ, Short, List.length_cons]
    omega)
  rw [hpage, Ico_succ] at h2
  have howned := h.owned.insert (fun hc => hnew (Finset.mem_filter.mp hc).1) hp
    (h1.aligned p List.mem_cons_self) h.span.aligned
  rw [← hinsert, ← frameOf_update] at howned
  refine ⟨m2, free2, taken2, p :: data, _, ?_, h2, ?_, h.kept_insert fun hc => absurd hz hc, howned⟩
  · rw [allocatePage, h.getMapping_next hpage hlow, reading, if_pos hz]
    simp [htake, hmap]
  · rw [List.length_cons, hcount, hcard]

section

variable (hva : va.toNat = 4096 * (a + j)) (hlow : a + j < 1046527)
  (henough : Affords m₀ D free₀ (Finset.Ico a (a + (j + 1))))

include hva hlow henough

theorem Filled.step_kept (hz : pte m₀ D (a + j) ≠ 0) :
    ∃ m' free' taken' data' addr', allocatePage m va flags = some m' ∧
      Filled m₀ D used free₀ m' free' taken' data' flags a (j + 1) addr' := by
  have hpage : va.toNat / 4096 = a + j := by omega
  have hnew : a + j ∉ Finset.Ico a (a + j) := by simp
  have hinsert : unmapped m₀ D (Finset.Ico a (a + (j + 1))) =
      unmapped m₀ D (Finset.Ico a (a + j)) := by
    rw [← Ico_succ, unmapped, Finset.filter_insert, if_neg hz, unmapped]
  have hcount := h.count
  rw [Affords, hinsert] at henough
  obtain ⟨m2, free2, taken2, hmap, h2⟩ := h.span.map (show va.toNat / 4096 < 1046527 by omega)
    ((pte m₀ D (a + j) &&& pageAddrMask) + (va &&& pageFlagsMask)) (by
      rw [hpage, Ico_succ, Short]
      omega)
  rw [hpage, Ico_succ] at h2
  have hframe := frameOf_reading (e := pte m₀ D (a + j)) (show va.toNat % 4096 = 0 by omega)
  have howned := h.owned.update (fun hc => hnew (Finset.mem_filter.mp hc).1)
    (frameOf ((pte m₀ D (a + j) &&& pageAddrMask) + (va &&& pageFlagsMask)))
  rw [← hinsert, ← frameOf_update] at howned
  refine ⟨m2, free2, taken2, data, _, ?_, h2, ?_, h.kept_insert fun _ => hframe, howned⟩
  · rw [allocatePage, h.getMapping_next hpage hlow, reading, if_neg hz]
    simp [hmap]
  · rw [hinsert, hcount]

/-- **One iteration**: the next page keeps its frame, or gets one from the stack. -/
theorem Filled.step : ∃ m' free' taken' data' addr', allocatePage m va flags = some m' ∧
      Filled m₀ D used free₀ m' free' taken' data' flags a (j + 1) addr' := by
  by_cases hz : pte m₀ D (a + j) = 0
  · exact h.step_new (by omega) hlow henough hz
  · exact h.step_kept hva hlow henough hz

end

end

/-- **The loop** maps the pages that are left. -/
theorem Filled.loop {t : ℕ} (hend : vaEnd.toNat = 4096 * (a + t)) (hlow : a + t ≤ 1046527)
    (henough : Affords m₀ D free₀ (Finset.Ico a (a + t))) (n : ℕ) :
    ∀ {m : Machine} {free taken data : List UInt32} {j : ℕ} {addr : ℕ → UInt32} {va : UInt32},
    Filled m₀ D used free₀ m free taken data flags a j addr → va.toNat = 4096 * (a + j) →
    j ≤ t → t ≤ j + n →
    ∃ m' free' taken' data' addr', allocateFrom vaEnd flags n va m = some m' ∧
      Filled m₀ D used free₀ m' free' taken' data' flags a t addr' := by
  induction n with
  | zero =>
    intro m free taken data j addr va h _ hj ht
    obtain rfl : j = t := by omega
    exact ⟨m, free, taken, data, addr, rfl, h⟩
  | succ n ih =>
    intro m free taken data j addr va h hva hj ht
    rw [allocateFrom]
    rcases Nat.lt_or_ge j t with hlt | hge
    · have hsub : Finset.Ico a (a + (j + 1)) ⊆ Finset.Ico a (a + t) :=
        Finset.Ico_subset_Ico_right (by omega)
      obtain ⟨m1, free1, taken1, data1, addr1, hm1, h1⟩ :=
        h.step hva (by omega) (henough.mono hsub)
      have hnext : (va + pageSize).toNat = 4096 * (a + (j + 1)) := by
        rw [UInt32.toNat_add, toNat_pageSize]
        omega
      obtain ⟨m2, free2, taken2, data2, addr2, hm2, h2⟩ := ih h1 hnext hlt (by omega)
      refine ⟨m2, free2, taken2, data2, addr2, ?_, h2⟩
      rw [if_pos (UInt32.lt_iff_toNat_lt.mpr (by omega)), hm1]
      exact hm2
    · obtain rfl : j = t := by omega
      refine ⟨m, free, taken, data, addr, ?_, h⟩
      rw [if_neg]
      rw [UInt32.lt_iff_toNat_lt]
      omega

/-- The flags of an entry that `map` writes. -/
theorem pteOf_flags (pa : UInt32) {flags : UInt32} (hf : flags.toNat < 4096) :
    pteOf pa flags &&& pageFlagsMask = flags ||| pagePresent := by
  have hal : (pa &&& pageAddrMask).toNat % 4096 = 0 := by
    rw [pageAddrMask, Word32.toNat_aligned]
    omega
  have hg : (flags ||| pagePresent).toNat < 4096 := by
    exact Nat.or_lt_two_pow (n := 12) hf (by decide)
  apply UInt32.toNat_inj.mp
  rw [pteOf, UInt32.or_assoc, UInt32.or_comm pagePresent, pageFlagsMask, Word32.toNat_offset,
    Word32.toNat_or_of_aligned hal hg]
  omega

/-- **What the walk leaves behind.** -/
theorem Filled.covers (h0 : Supply m₀ D used free₀ [])
    (h : Filled m₀ D used free₀ m free taken data flags a j addr) (hf : flags.toNat < 4096) :
    Covers m₀ m D (Finset.Ico a (a + j)) flags := by
  have hpte : ∀ n ∈ Finset.Ico a (a + j), pte m D n = pteOf (addr n) flags := by
    intro n hn
    have hbelow := h.span.below n hn
    rw [h.span.pte n (by omega), if_pos hn]
  have hframe : ∀ n ∈ Finset.Ico a (a + j), frameOf (pte m D n) = frameOf (addr n) := by
    intro n hn
    rw [hpte n hn]
    exact (entry_pteOf (addr n) hf).2
  have hun : ∀ n ∈ Finset.Ico a (a + j), pte m₀ D n = 0 →
      n ∈ unmapped m₀ D (Finset.Ico a (a + j)) :=
    fun n hn hz => Finset.mem_filter.mpr ⟨hn, hz⟩
  constructor
  case flags =>
    intro n hn
    rw [hpte n hn]
    exact pteOf_flags _ hf
  case kept =>
    intro n hn hne
    rw [hframe n hn]
    exact h.kept n hn hne
  case fresh =>
    intro n hn hz
    obtain ⟨p, hp, hfp⟩ := h.owned.own n (hun n hn hz)
    rw [hframe n hn, hfp]
    exact (h.span.freeFrame h0 hp).1
  case distinct =>
    intro b hb c hc hbz hcz heq
    rw [hframe b hb, hframe c hc] at heq
    exact h.owned.inj b (hun b hb hbz) c (hun c hc hcz) heq
  case other => exact fun va hva hn => h.span.getMapping_other h0.selfMapped hva hn
  case window =>
    intro va hva
    have hd : (pgtabIdxFromAddr va).toNat < 1024 := by rw [toNat_pgtabIdx]; omega
    have hkeeps := h.span.keeps _ hd
    have htable := h.span.table_ne_iff h0.selfMapped hd
    rw [Finset.mem_image] at htable
    rw [getMapping_window h.span.supply.selfMapped hva, getMapping_window h0.selfMapped hva]
    simp only [ne_eq, Option.some.injEq, reading_eq_none]
    exact ⟨fun hne => by rw [hkeeps hne], htable⟩

theorem toNat_pageRoundUp {x : UInt32} (hx : x.toNat ≤ 0xFD000000) :
    (pageRoundUp x).toNat = 4096 * ((x.toNat + 4095) / 4096) := by
  have hadd : (x + pageSize - 1).toNat = x.toNat + 4095 := by
    rw [UInt32.toNat_sub, UInt32.toNat_add, toNat_pageSize,
      UInt32.toNat_one]
    omega
  rw [pageRoundUp, pageAddrMask, Word32.toNat_aligned, hadd]
  omega

/-- **`allocate_range`** returns when there are enough pages. -/
theorem Filled.allocateRange (h : Supply m D used free []) {vaStart : UInt32}
    (hle : vaStart ≤ vaEnd) (htop : vaEnd ≤ mountTabsStart)
    (henough : Affords m D free (rangePages vaStart vaEnd)) (flags : UInt32) :
    ∃ m' t free' taken data addr,
      allocateRange m vaStart vaEnd flags = some (pageRoundUp vaEnd, m') ∧
      rangePages vaStart vaEnd = Finset.Ico (vaStart.toNat / 4096) (vaStart.toNat / 4096 + t) ∧
      Filled m D used free m' free' taken data flags (vaStart.toNat / 4096) t addr := by
  have hle' := UInt32.le_iff_toNat_le.mp hle
  have htop' : vaEnd.toNat ≤ 0xFD000000 := UInt32.le_iff_toNat_le.mp htop
  obtain ⟨t, ht⟩ := Nat.exists_eq_add_of_le
    (show vaStart.toNat / 4096 ≤ (vaEnd.toNat + 4095) / 4096 by omega)
  have hstart : (pageRoundDown vaStart).toNat = 4096 * (vaStart.toNat / 4096 + 0) := by
    rw [pageRoundDown, pageAddrMask, Word32.toNat_aligned]
    omega
  have hend := toNat_pageRoundUp htop'
  rw [ht] at hend
  rw [rangePages, ht] at henough ⊢
  obtain ⟨m', free', taken, data, addr, hm', h'⟩ := Filled.loop hend (by omega) henough
    (pgNumFromAddr (pageRoundUp vaEnd)).toNat (Filled.start h flags _) hstart (Nat.zero_le _)
    (by rw [toNat_pgNum]; omega)
  refine ⟨m', t, free', taken, data, addr, ?_, rfl, h'⟩
  simp [Paging.allocateRange, hm']

/-- **`allocate_range` maps the range, and nothing else**, for every range below the mount points,
if there are enough free pages. -/
theorem covers_allocateRange (h : Supply m D used free []) {vaStart vaEnd : UInt32}
    (hle : vaStart ≤ vaEnd) (htop : vaEnd ≤ mountTabsStart) (hflags : flags < 0x1000)
    (henough : Affords m D free (rangePages vaStart vaEnd)) :
    ∃ m', allocateRange m vaStart vaEnd flags = some (pageRoundUp vaEnd, m') ∧
      Covers m m' D (rangePages vaStart vaEnd) flags := by
  obtain ⟨m', t, free', taken, data, addr, hm', hpages, h'⟩ :=
    Filled.allocateRange h hle htop henough flags
  rw [hpages]
  exact ⟨m', hm', h'.covers h (UInt32.lt_iff_toNat_lt.mp hflags)⟩

theorem Affords.of_card (hcard : 2 * pages.card ≤ free.length) : Affords m D free pages := by
  have hun : (unmapped m D pages).card ≤ pages.card := Finset.card_filter_le _ _
  have htables : (missing m D pages).card ≤ pages.card :=
    (Finset.card_filter_le _ _).trans Finset.card_image_le
  rw [Affords]
  omega

end

theorem supply_heapMachine : Supply heapMachine 16 [0x14000] ((List.range 103).map samplePage) [] :=
  holds_heapMachine.supply

theorem affords_heapMachine :
    Affords heapMachine 16 ((List.range 103).map samplePage) (rangePages 0x400800 0x401800) := by
  apply Affords.of_card
  rw [List.length_map, List.length_range]
  decide

/-- Two pages that the range only touches. -/
theorem covers_heapMachine :
    Supply heapMachine 16 [0x14000] ((List.range 103).map samplePage) [] ∧
    ∃ m', allocateRange heapMachine 0x400800 0x401800 2 = some (0x402000, m') ∧
      Covers heapMachine m' 16 (rangePages 0x400800 0x401800) 2 :=
  ⟨supply_heapMachine, covers_allocateRange supply_heapMachine (by decide) (by decide) (by decide)
    affords_heapMachine⟩

/-- The page at `0xFFC01000` is not in the range, and yet it is mapped: it shows page table `1`,
which is new. -/
theorem window_heapMachine :
    Supply heapMachine 16 [0x14000] ((List.range 103).map samplePage) [] ∧
    Affords heapMachine 16 ((List.range 103).map samplePage) (rangePages 0x400800 0x401800) ∧
    (0xFFC01000 : UInt32).toNat / 4096 ∉ rangePages 0x400800 0x401800 ∧
    getMapping heapMachine 0xFFC01000 = some none ∧
    ∃ m', allocateRange heapMachine 0x400800 0x401800 2 = some (0x402000, m') ∧
      getMapping m' 0xFFC01000 ≠ some none := by
  refine ⟨supply_heapMachine, affords_heapMachine, by decide, by decide, ?_⟩
  obtain ⟨m', t, free', taken, data, addr, hm', hpages, h'⟩ :=
    Filled.allocateRange supply_heapMachine (by decide) (by decide) affords_heapMachine 2
  have hcovers := h'.covers supply_heapMachine (by decide)
  rw [← hpages] at hcovers
  refine ⟨m', hm', (hcovers.window 0xFFC01000 (by decide)).2.mpr (.inr ⟨1024, ?_, by decide⟩)⟩
  decide

end AthenX.Paging
