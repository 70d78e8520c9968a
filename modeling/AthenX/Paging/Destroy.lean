import AthenX.Paging.Clone

/-!
# What `destroy_directory` frees

`destroy_directory` frees the page tables of a directory and their pages, but for those shared with
the kernel and the ways by which it maps itself. Only the pages of the stack are written to, so what
is freed can be read off the state before.
-/

namespace AthenX.Paging

open List Option

/-- What `pmm_free_page` puts on the stack, for the page an entry refers to. -/
def freedPage (loc e : UInt32) : List UInt32 :=
  if e &&& pageAddrMask < loc then [] else [e &&& pageAddrMask]

/-- The pages freed of page table `i` of the directory in frame `C`, from page `j` on. -/
def released (m : Machine) (C pageNum i : ℕ) : ℕ → ℕ → List UInt32
  | 0,     _ => []
  | n + 1, j =>
      (if m.mem (frameOf (m.mem C i)) j = 0 ∨ 1024 * i + j = pageNum then []
        else freedPage m.pmmLocation (m.mem (frameOf (m.mem C i)) j)) ++
      released m C pageNum i n (j + 1)

/-- The pages freed for entry `i`: those of the page table, and the page table. -/
def releasedEntry (m : Machine) (C K dirEntry pageNum i : ℕ) : List UInt32 :=
  if m.mem C i = 0 ∨ m.mem C i = m.mem K i ∨ i = dirEntry then []
  else released m C pageNum i 1024 0 ++ freedPage m.pmmLocation (m.mem C i)

/-- The pages that are freed for the entries from `i` on. -/
def releasedEntries (m : Machine) (C K dirEntry pageNum : ℕ) : ℕ → ℕ → List UInt32
  | 0,     _ => []
  | n + 1, i =>
      releasedEntry m C K dirEntry pageNum i ++ releasedEntries m C K dirEntry pageNum n (i + 1)

/-- Since `r` pages were freed, and only the pages of the stack were written to. -/
structure Freeing (r : Machine) (D T K w : ℕ) (used : List UInt32) (m : Machine)
    (free : List UInt32) : Prop where
  ground : Ground m D T K w used free
  setup : SameSetup r m
  mem : ∀ f, (∀ q ∈ used, f ≠ frameOf q) → ∀ i, m.mem f i = r.mem f i

/-- The directory in frame `C` is mounted, and it and the tables that are freed are no pages of the
stack. -/
structure Exposed (r : Machine) (D T K : ℕ) (used : List UInt32) (C s t : ℕ) : Prop where
  slot_lt : s < 4
  window_lt : t < 8
  slot : Entry (r.mem T (1019 + s)) C
  window : Entry (r.mem D (1012 + t)) C
  dir : ∀ q ∈ used, C ≠ frameOf q
  table : ∀ i < 960, r.mem C i ≠ 0 → r.mem C i ≠ r.mem K i →
    present (r.mem C i) = true ∧ ∀ q ∈ used, frameOf (r.mem C i) ≠ frameOf q

namespace Freeing

variable {r m : Machine} {D T K w C s t : ℕ} {used free : List UInt32}

section

variable (v : Freeing r D T K w used m free)

include v

theorem table_eq {f : ℕ} (hf : IsTable m D T K w f) (i : ℕ) : m.mem f i = r.mem f i := by
  refine v.mem f ?_ i
  rintro q hq rfl
  exact v.ground.apart q hq hf

/-- **`pmm_free_page`** of the page an entry refers to. -/
theorem free_page (e : UInt32)
    (hroom : (free ++ freedPage r.pmmLocation e).length ≤ 1024 * used.length) :
    ∃ m', pmmFreePage m (e &&& pageAddrMask) = some m' ∧
      Freeing r D T K w used m' (free ++ freedPage r.pmmLocation e) := by
  have hmask : (e &&& pageAddrMask) &&& pageAddrMask = e &&& pageAddrMask := by
    rw [UInt32.and_assoc, UInt32.and_self]
  by_cases hlow : e &&& pageAddrMask < r.pmmLocation
  · rw [freedPage, if_pos hlow, append_nil]
    refine ⟨m, ?_, v⟩
    simp only [pmmFreePage]
    rw [hmask, v.setup.location, if_pos hlow]
  · rw [freedPage, if_neg hlow] at hroom ⊢
    rw [length_append, length_singleton] at hroom
    have hhigh : m.pmmLocation ≤ e &&& pageAddrMask := by
      rw [v.setup.location]
      exact UInt32.not_lt.mp hlow
    obtain ⟨q, hq, hfree, hground⟩ := v.ground.push hhigh hmask (by omega)
    refine ⟨_, hfree, hground, v.setup.trans sameSetup_mem, ?_⟩
    intro f hf i
    rw [Machine.poke_mem, if_neg fun hc => hf q hq hc.1]
    exact v.mem f hf i

/-! ### What is read -/

theorem load_directory (x : Exposed r D T K used C s t) {i : UInt32} (hi : i.toNat < 1024) :
    m.load ((mountAt s t).directory + 4 * i) = some (r.mem C i.toNat) := by
  have hslot : Entry (m.mem T (1019 + s)) C := by
    rw [v.table_eq (.inr (.inl rfl))]
    exact x.slot
  show m.load (slotAddr s + 4 * i) = _
  rw [Machine.load, v.ground.current.translate_slotAddr x.slot_lt hslot hi, map_some, v.mem C x.dir]

theorem load_pages (x : Exposed r D T K used C s t)
    {k : UInt32} {i j : ℕ} (hi : i < 960) (hj : j < 1024) (hk : k.toNat = 1024 * i + j)
    (hne : r.mem C i ≠ 0) (hne' : r.mem C i ≠ r.mem K i) :
    m.load ((mountAt s t).pages + 4 * k) = some (r.mem (frameOf (r.mem C i)) j) := by
  have hwindow : Entry (m.mem D (1012 + t)) C := by
    rw [v.table_eq (.inl rfl)]
    exact x.window
  obtain ⟨hpresent, htable⟩ := x.table i hi hne hne'
  have htr := v.ground.current.translate_windowAddr x.window_lt hwindow (n := k) (by omega)
  rw [show k.toNat / 1024 = i by omega, show k.toNat % 1024 = j by omega, v.mem C x.dir,
    if_pos hpresent] at htr
  show m.load (windowAddr t + 4 * k) = _
  rw [Machine.load, htr, map_some, v.mem _ htable]

end

/-! ### The loops -/

/-- **The inner loop** from page `j` on. -/
theorem pages (x : Exposed r D T K used C s t) {i : ℕ} (hi : i < 960) (hne : r.mem C i ≠ 0)
    (hne' : r.mem C i ≠ r.mem K i) (pageNum : UInt32) (n : ℕ) :
    ∀ {m : Machine} {free : List UInt32} {j : ℕ} {k : UInt32}, Freeing r D T K w used m free →
      k.toNat = 1024 * i + j → j + n ≤ 1024 →
      (free ++ released r C pageNum.toNat i n j).length ≤ 1024 * used.length →
      ∃ m', freePages (mountAt s t) pageNum n k m = some m' ∧
        Freeing r D T K w used m' (free ++ released r C pageNum.toNat i n j) := by
  induction n with
  | zero =>
    intro m free j k v _ _ _
    rw [released, append_nil]
    exact ⟨m, rfl, v⟩
  | succ n ih =>
    intro m free j k v hk hj hroom
    have hnext : (k + 1).toNat = 1024 * i + (j + 1) := by
      rw [UInt32.toNat_add, UInt32.toNat_one]
      omega
    have hread := v.load_pages x hi (by omega) hk hne hne'
    have hnum : k = pageNum ↔ 1024 * i + j = pageNum.toNat := by
      rw [← UInt32.toNat_inj, hk]
    rw [released, ← append_assoc] at hroom ⊢
    obtain ⟨m', hpage, v'⟩ : ∃ m', freePage (mountAt s t) pageNum k m = some m' ∧
        Freeing r D T K w used m' (free ++
          if r.mem (frameOf (r.mem C i)) j = 0 ∨ 1024 * i + j = pageNum.toNat then []
          else freedPage r.pmmLocation (r.mem (frameOf (r.mem C i)) j)) := by
      rw [freePage, hread, bind_eq_bind, bind_some]
      simp only [hnum]
      by_cases hskip : r.mem (frameOf (r.mem C i)) j = 0 ∨ 1024 * i + j = pageNum.toNat
      · rw [if_pos hskip, if_pos hskip, append_nil]
        exact ⟨m, rfl, v⟩
      · rw [if_neg hskip] at hroom
        rw [if_neg hskip, if_neg hskip]
        exact v.free_page _ (le_trans (prefix_append _ _).length_le hroom)
    rw [freePages, hpage]
    exact ih v' hnext (by omega) hroom

/-- **The body of the outer loop.** -/
theorem entry (v : Freeing r D T K w used m free) (x : Exposed r D T K used C s t)
    (dirEntry pageNum : UInt32) {i : ℕ} {k : UInt32} (hk : k.toNat = i) (hi : i < 960)
    (hroom : (free ++ releasedEntry r C K dirEntry.toNat pageNum.toNat i).length ≤
      1024 * used.length) :
    ∃ m', freeEntry (mountAt s t) dirEntry pageNum k m = some m' ∧
      Freeing r D T K w used m' (free ++ releasedEntry r C K dirEntry.toNat pageNum.toNat i) := by
  have hload := v.load_directory x (i := k) (by omega)
  have hkernel := v.ground.load_kernel (i := k) (by omega)
  have hnum : k = dirEntry ↔ i = dirEntry.toNat := by
    rw [← UInt32.toNat_inj, hk]
  rw [hk] at hload hkernel
  rw [v.table_eq (.inr (.inr (.inl rfl)))] at hkernel
  rw [freeEntry, hload, bind_eq_bind, bind_some]
  by_cases hz : r.mem C i = 0
  · rw [if_pos hz, releasedEntry, if_pos (.inl hz), append_nil]
    exact ⟨m, rfl, v⟩
  rw [if_neg hz, hkernel, bind_eq_bind, bind_some]
  simp only [hnum]
  by_cases hskip : r.mem C i = r.mem K i ∨ i = dirEntry.toNat
  · rw [if_pos hskip, releasedEntry, if_pos (.inr hskip), append_nil]
    exact ⟨m, rfl, v⟩
  · rw [releasedEntry, if_neg (not_or.mpr ⟨hz, hskip⟩), ← append_assoc] at hroom ⊢
    obtain ⟨m1, hpages, v1⟩ := pages x hi hz (not_or.mp hskip).1 pageNum 1024 v
      (k := 1024 * k)
      (by rw [UInt32.toNat_mul, show (1024 : UInt32).toNat = 1024 by decide]; omega)
      (by omega) (le_trans (prefix_append _ _).length_le hroom)
    have hload1 := v1.load_directory x (i := k) (by omega)
    rw [hk] at hload1
    obtain ⟨m2, hfree, v2⟩ := v1.free_page (r.mem C i) hroom
    refine ⟨m2, ?_, v2⟩
    rw [if_neg hskip, hpages, bind_some, hload1, bind_some, hfree]

/-- **The outer loop** from entry `i` on. -/
theorem entries (x : Exposed r D T K used C s t) (dirEntry pageNum : UInt32) (n : ℕ) :
    ∀ {m : Machine} {free : List UInt32} {i : ℕ} {k : UInt32}, Freeing r D T K w used m free →
      k.toNat = i → i + n ≤ 960 →
      (free ++ releasedEntries r C K dirEntry.toNat pageNum.toNat n i).length ≤ 1024 * used.length →
      ∃ m', freeEntries (mountAt s t) dirEntry pageNum n k m = some m' ∧
        Freeing r D T K w used m'
          (free ++ releasedEntries r C K dirEntry.toNat pageNum.toNat n i) := by
  induction n with
  | zero =>
    intro m free i k v _ _ _
    rw [releasedEntries, append_nil]
    exact ⟨m, rfl, v⟩
  | succ n ih =>
    intro m free i k v hk hi hroom
    rw [releasedEntries, ← append_assoc] at hroom ⊢
    obtain ⟨m', hentry, v'⟩ := v.entry x dirEntry pageNum hk (by omega)
      (le_trans (prefix_append _ _).length_le hroom)
    rw [freeEntries, hentry]
    refine ih v' ?_ (by omega) hroom
    rw [UInt32.toNat_add, UInt32.toNat_one]
    omega

end Freeing

/-! ### `destroy_directory` -/

theorem released_congr {m r : Machine} {C pageNum i : ℕ} (hloc : r.pmmLocation = m.pmmLocation)
    (hdir : r.mem C i = m.mem C i)
    (htable : ∀ j, r.mem (frameOf (m.mem C i)) j = m.mem (frameOf (m.mem C i)) j) :
    ∀ n j, released r C pageNum i n j = released m C pageNum i n j := by
  intro n
  induction n with
  | zero =>
    intro j
    rfl
  | succ n ih =>
    intro j
    rw [released, released, hloc, hdir, htable, ih]

theorem releasedEntries_congr {m r : Machine} {C K dirEntry pageNum : ℕ}
    (hloc : r.pmmLocation = m.pmmLocation) (hdir : ∀ i, r.mem C i = m.mem C i) {l : ℕ}
    (hkernel : ∀ i < l, r.mem K i = m.mem K i)
    (htable : ∀ i < l, m.mem C i ≠ 0 → m.mem C i ≠ m.mem K i → ∀ j,
      r.mem (frameOf (m.mem C i)) j = m.mem (frameOf (m.mem C i)) j) :
    ∀ n i, i + n ≤ l →
      releasedEntries r C K dirEntry pageNum n i = releasedEntries m C K dirEntry pageNum n i := by
  intro n
  induction n with
  | zero =>
    intro i _
    rfl
  | succ n ih =>
    intro i hi
    rw [releasedEntries, releasedEntries, ih (i + 1) (by omega), releasedEntry, releasedEntry,
      hdir, hkernel i (by omega), hloc]
    by_cases hskip : m.mem C i = 0 ∨ m.mem C i = m.mem K i ∨ i = dirEntry
    · rw [if_pos hskip, if_pos hskip]
    · have hskip' := hskip
      simp only [not_or] at hskip'
      rw [if_neg hskip, if_neg hskip,
        released_congr hloc (hdir i) (htable i (by omega) hskip'.1 hskip'.2.1)]

theorem pmmFreePage_mask (m : Machine) (p : UInt32) :
    pmmFreePage m (p &&& pageAddrMask) = pmmFreePage m p := by
  simp [pmmFreePage, UInt32.and_assoc, UInt32.and_self]

section

variable {m : Machine} {D T K w : ℕ} {used free : List UInt32}

/-- The pages that `destroy_directory` frees. -/
def destroyed (m : Machine) (K : ℕ) (dir : PageDirectory) : List UInt32 :=
  releasedEntries m (frameOf dir.physical) K (pgdirIdxFromAddr dir.pages).toNat
    (pgNumFromAddr dir.directory).toNat 960 0 ++ freedPage m.pmmLocation dir.physical

/-- **`destroy_directory`** puts the pages on the stack, and changes no other frame. -/
theorem destroyDirectory_eq (h : Ground m D T K w used free)
    (hs : ∃ s < 4, m.mem T (1019 + s) = 0) (ht : ∃ t < 8, m.mem D (1012 + t) = 0)
    {dir : PageDirectory} (hC : ¬Rests m D T K w used (frameOf dir.physical))
    (htable : ∀ i < 960, m.mem (frameOf dir.physical) i ≠ 0 →
      m.mem (frameOf dir.physical) i ≠ m.mem K i →
      present (m.mem (frameOf dir.physical) i) = true ∧
        ¬Rests m D T K w used (frameOf (m.mem (frameOf dir.physical) i)))
    (hroom : (free ++ destroyed m K dir).length ≤ 1024 * used.length) :
    ∃ m', destroyDirectory m dir = some m' ∧
      Ground m' D T K w used (free ++ destroyed m K dir) ∧ SameSetup m m' ∧
      ∀ f, (∀ q ∈ used, f ≠ frameOf q) → ∀ i, m'.mem f i = m.mem f i := by
  obtain ⟨s, hs, t, ht, hslot, hwindow, hmount⟩ := mountDirectory_eq h.current hs ht dir
  have hTD := h.current.slots_ne
  obtain ⟨K', -, hK', hTK', -⟩ := h.current.kernel
  obtain rfl : K' = K := hK'.2.symm.trans h.kernelWindow.2
  -- only the words of the mount are different
  have hother : ∀ f, ¬Rests m D T K' w used f → ∀ i,
      (mounted m D T s t dir).mem f i = m.mem f i := by
    intro f hf i
    refine mounted_other dir ?_ ?_
    · rintro ⟨rfl, -⟩
      exact hf (.inl (.inr (.inl rfl)))
    · rintro ⟨rfl, -⟩
      exact hf (.inl (.inl rfl))
  have hkernel : ∀ i < 960, (mounted m D T s t dir).mem K' i = m.mem K' i := fun i hi =>
    mounted_other dir (fun hc => hTK' hc.1.symm) (by omega)
  have hused : ∀ f, ¬Rests m D T K' w used f → ∀ q ∈ used, f ≠ frameOf q := by
    rintro f hf q hq rfl
    exact hf (.inr ⟨q, hq, rfl⟩)
  have hexposed : Exposed (mounted m D T s t dir) D T K' used (frameOf dir.physical) s t := by
    refine ⟨hs, ht, ?_, ?_, hused _ hC, ?_⟩
    · rw [mounted_slot hTD, if_pos rfl]
      exact entry_pteOf dir.physical (by decide)
    · rw [mounted_window hTD, if_pos rfl]
      exact entry_table dir.physical
    · intro i hi hne hne'
      rw [hother _ hC] at hne hne' ⊢
      rw [hkernel i hi] at hne'
      obtain ⟨hpresent, hrests⟩ := htable i hi hne hne'
      exact ⟨hpresent, hused _ hrests⟩
  have hloc : (mounted m D T s t dir).pmmLocation = m.pmmLocation := rfl
  have hreleased : releasedEntries (mounted m D T s t dir) (frameOf dir.physical) K'
      (pgdirIdxFromAddr dir.pages).toNat (pgNumFromAddr dir.directory).toNat 960 0 =
      releasedEntries m (frameOf dir.physical) K' (pgdirIdxFromAddr dir.pages).toNat
        (pgNumFromAddr dir.directory).toNat 960 0 :=
    releasedEntries_congr hloc (hother _ hC) hkernel
      (fun i hi hne hne' => hother _ (htable i hi hne hne').2) 960 0 (by omega)
  rw [destroyed, ← append_assoc] at hroom ⊢
  rw [← hreleased] at hroom ⊢
  obtain ⟨m1, hrun, v1⟩ := Freeing.entries hexposed (pgdirIdxFromAddr dir.pages)
    (pgNumFromAddr dir.directory) 960
    ⟨h.mounted hs ht dir, .refl _, fun _ _ _ => rfl⟩ (i := 0) (k := 0) rfl (by omega)
    (le_trans (prefix_append _ _).length_le hroom)
  obtain ⟨m2, hfree, v2⟩ := v1.free_page dir.physical hroom
  rw [pmmFreePage_mask] at hfree
  refine ⟨unmounted m2 D T s t, ?_, v2.ground.unmounted hs ht, ?_, ?_⟩
  · rw [destroyDirectory, hmount]
    show (freeEntries _ _ _ 960 0 _).bind _ = _
    rw [hrun, bind_some, hfree, bind_eq_bind, bind_some, umountDirectory_eq v2.ground.current hs ht]
  · have hbefore : SameSetup m (mounted m D T s t dir) :=
      sameSetup_mem
    have hafter : SameSetup m2 (unmounted m2 D T s t) :=
      sameSetup_mem
    exact hbefore.trans (v2.setup.trans hafter)
  · intro f hf i
    rw [unmounted_mem]
    by_cases hword : f = T ∧ i = 1019 + s ∨ f = D ∧ i = 1012 + t
    · rw [if_pos hword]
      rcases hword with ⟨rfl, rfl⟩ | ⟨rfl, rfl⟩
      · exact hslot.symm
      · exact hwindow.symm
    · rw [if_neg hword, v2.mem f hf]
      exact mounted_other dir (fun hc => hword (.inl hc)) fun hc => hword (.inr hc)

end

end AthenX.Paging
