import AthenX.Lib.Partial
import AthenX.Paging.Stock

/-!
# Mapping many pages

`pmm_alloc_pages` and `allocate_range` take pages from the stack and map them, and `map` makes page
tables of some on its own account. `Span` keeps the books of such a walk: which pages were taken and
for what, and what the page tables say. It is known in advance which page tables are missing, and
whether there are enough pages (`Short`).
-/

namespace AthenX.Paging

open Partial List Function Finset

theorem Ico_succ (z j : ℕ) :
    insert (z + j) (Finset.Ico z (z + j)) = Finset.Ico z (z + (j + 1)) := by
  ext n
  simp only [mem_insert, mem_Ico]
  omega

/-! ### The page tables that are missing -/

/-- The page tables for `pages` that are missing in `m₀`. -/
def missing (m₀ : Machine) (D : ℕ) (pages : Finset ℕ) : Finset ℕ :=
  (pages.image (· / 1024)).filter fun d => m₀.mem D d = 0

variable {m₀ : Machine} {D n : ℕ} {pages pages' : Finset ℕ} {va : UInt32}

theorem missing_mono (h : pages ⊆ pages') :
    (missing m₀ D pages).card ≤ (missing m₀ D pages').card :=
  card_le_card (filter_subset_filter _ (image_subset_image h))

theorem missing_insert (h : m₀.mem D (n / 1024) = 0 ∧ n / 1024 ∉ pages.image (· / 1024)) :
    (missing m₀ D (insert n pages)).card = (missing m₀ D pages).card + 1 := by
  have hn : n / 1024 ∉ missing m₀ D pages := fun hc => h.2 (mem_filter.mp hc).1
  rw [missing, image_insert, filter_insert, if_pos h.1]
  exact card_insert_of_notMem hn

theorem missing_insert_of_present
    (h : ¬(m₀.mem D (n / 1024) = 0 ∧ n / 1024 ∉ pages.image (· / 1024))) :
    missing m₀ D (insert n pages) = missing m₀ D pages := by
  rw [missing, image_insert]
  by_cases hmem : n / 1024 ∈ pages.image (· / 1024)
  · rw [insert_eq_self.mpr hmem, missing]
  · rw [filter_insert, if_neg fun hz => h ⟨hz, hmem⟩, missing]

/-- There are too few pages to take `c` and to have the page tables for `pages`. -/
def Short (m₀ : Machine) (D : ℕ) (free₀ : List UInt32) (c : ℕ) (pages : Finset ℕ) : Prop :=
  free₀.length < c + (missing m₀ D pages).card

theorem Short.mono {free₀ : List UInt32} {c c' : ℕ} (h : Short m₀ D free₀ c pages) (hc : c ≤ c')
    (hp : pages ⊆ pages') : Short m₀ D free₀ c' pages' :=
  lt_of_lt_of_le h (Nat.add_le_add hc (missing_mono hp))

/-! ### Frames of one's own -/

/-- The pages `heap` are mapped to frames of their own, those of pages of `data`. -/
structure Owned (data : List UInt32) (heap : Finset ℕ) (frame : ℕ → ℕ) : Prop where
  own : ∀ n ∈ heap, ∃ p ∈ data, frame n = frameOf p
  inj : ∀ a ∈ heap, ∀ b ∈ heap, frame a = frame b → a = b

namespace Owned

variable {data : List UInt32} {heap : Finset ℕ} {frame : ℕ → ℕ}

theorem update (h : Owned data heap frame) (hn : n ∉ heap) (f : ℕ) :
    Owned data heap (update frame n f) := by
  have hsame : ∀ a ∈ heap, Function.update frame n f a = frame a := by
    intro a ha
    rw [update_of_ne]
    rintro rfl
    exact hn ha
  refine ⟨?_, ?_⟩
  · intro a ha
    rw [hsame a ha]
    exact h.own a ha
  · intro a ha b hb
    rw [hsame a ha, hsame b hb]
    exact h.inj a ha b hb

theorem insert (h : Owned data heap frame) (hn : n ∉ heap) {p : UInt32} (hp : p ∉ data)
    (hal : p.toNat % 4096 = 0) (hdata : ∀ q ∈ data, q.toNat % 4096 = 0) :
    Owned (p :: data) (insert n heap) (Function.update frame n (frameOf p)) := by
  have hsame : ∀ a ∈ heap, Function.update frame n (frameOf p) a = frame a := by
    intro a ha
    rw [update_of_ne]
    rintro rfl
    exact hn ha
  have hnew : ∀ a ∈ heap, frame a ≠ frameOf p := by
    intro a ha hf
    obtain ⟨q, hq, hframe⟩ := h.own a ha
    have heq := eq_of_frameOf_eq (hdata q hq) hal (hframe.symm.trans hf)
    exact hp (heq ▸ hq)
  refine ⟨?_, ?_⟩
  · intro a ha
    rcases mem_insert.mp ha with rfl | ha
    · exact ⟨p, mem_cons_self, update_self ..⟩
    · obtain ⟨q, hq, hframe⟩ := h.own a ha
      exact ⟨q, mem_cons_of_mem p hq, (hsame a ha).trans hframe⟩
  · intro a ha b hb hab
    rcases mem_insert.mp ha with hn' | ha <;>
      rcases mem_insert.mp hb with hn'' | hb
    · rw [hn', hn'']
    · rw [hn', update_self, hsame b hb] at hab
      exact absurd hab.symm (hnew b hb)
    · rw [hn'', update_self, hsame a ha] at hab
      exact absurd hab (hnew a ha)
    · rw [hsame a ha, hsame b hb] at hab
      exact h.inj a ha b hb hab

end Owned

theorem frameOf_update (addr : ℕ → UInt32) (n : ℕ) (pa : UInt32) :
    (fun i => frameOf (update addr n pa i)) = update (fun i => frameOf (addr i)) n (frameOf pa) :=
  Function.comp_update frameOf addr n pa

/-! ### The books -/

/-- From `m₀`, the pages `taken` were taken, `data` not for page tables, and `pages` were mapped
with `flags`, page `n` to `addr n`. -/
structure Span (m₀ : Machine) (D : ℕ) (used free₀ : List UInt32) (m : Machine)
    (free taken data : List UInt32) (flags : UInt32) (pages : Finset ℕ) (addr : ℕ → UInt32) :
    Prop where
  supply : Supply m D used free data
  total : free₀ = free ++ taken
  count : taken.length = data.length + (missing m₀ D pages).card
  subset : data ⊆ taken
  below : ∀ n ∈ pages, n < 1046527
  directory : ∀ d < 1023, m.mem D d = 0 ↔ m₀.mem D d = 0 ∧ d ∉ pages.image (· / 1024)
  keeps : ∀ d < 1024, m₀.mem D d ≠ 0 → m.mem D d = m₀.mem D d
  pte : ∀ n < 1047552, pte m D n = if n ∈ pages then pteOf (addr n) flags else pte m₀ D n

namespace Span

variable {m m' : Machine} {used free₀ free taken data : List UInt32} {flags p : UInt32}
  {addr : ℕ → UInt32}

theorem start (h : Supply m₀ D used free₀ []) (flags : UInt32) (addr : ℕ → UInt32) :
    Span m₀ D used free₀ m₀ free₀ [] [] flags ∅ addr where
  supply := h
  total := (append_nil _).symm
  count := rfl
  subset := List.Subset.refl _
  below := by simp
  directory := by simp
  keeps := fun _ _ _ => rfl
  pte := by simp

section

variable (h : Span m₀ D used free₀ m free taken data flags pages addr)

include h

theorem length_free : free₀.length = free.length + (data.length + (missing m₀ D pages).card) := by
  rw [h.total, length_append, h.count]

theorem aligned : ∀ q ∈ data, q.toNat % 4096 = 0 :=
  fun q hq => h.supply.aligned q (Supply.mem_data hq)

theorem freeFrame (h0 : Supply m₀ D used free₀ []) (hp : p ∈ data) :
    FreeFrame m₀ (frameOf p) ∧ ¬FreeFrame m (frameOf p) := by
  have hs := h.supply
  constructor
  · rw [h0.pile.freeFrame_iff h0.selfMapped.walks]
    refine ⟨p, ?_, rfl⟩
    rw [h.total]
    exact mem_append_right _ (h.subset hp)
  · rw [hs.pile.freeFrame_iff hs.selfMapped.walks]
    rintro ⟨q, hq, hf⟩
    have heq := eq_of_frameOf_eq (hs.aligned q (by simp [hq])) (h.aligned p hp) hf
    exact (nodup_append.mp (nodup_append.mp hs.nodup).2.1).2.2 q hq p hp heq

theorem getMapping_other (h0 : SelfMapped m₀ D) (hva : va < kernelTablesVirtual)
    (hn : va.toNat / 4096 ∉ pages) : getMapping m va = getMapping m₀ va := by
  have hlt := UInt32.lt_iff_toNat_lt.mp hva
  rw [kernelTablesVirtual, show (0xFFC00000 : UInt32).toNat = 0xFFC00000 by decide] at hlt
  rw [getMapping_eq h.supply.selfMapped, getMapping_eq h0, h.pte _ (by omega), if_neg hn]

/-- **A page taken** for mapping. -/
theorem take (henough : ¬Short m₀ D free₀ (data.length + 1) pages) :
    ∃ p m' free', pmmAllocPage m = some (p, m') ∧ p ∉ data ∧
      Span m₀ D used free₀ m' free' (p :: taken) (p :: data) flags pages addr := by
  rcases eq_nil_or_concat free with rfl | ⟨free', p, rfl⟩
  · refine absurd ?_ henough
    rw [Short, h.length_free, length_nil]
    omega
  rw [concat_eq_append] at h
  obtain ⟨m', htake, hmem, h'⟩ := h.supply.take
  have hp : p ∉ data := by
    have hnd := (nodup_append.mp (nodup_append.mp h'.nodup).2.1).2.1
    exact (nodup_cons.mp hnd).1
  refine ⟨p, m', free', htake, hp, h', ?_, ?_, ?_, h.below, ?_, ?_, ?_⟩
  · rw [h.total, append_assoc]
    rfl
  · rw [length_cons, length_cons, h.count]
    omega
  · exact cons_subset_cons p h.subset
  · rw [hmem]
    exact h.directory
  · rw [hmem]
    exact h.keeps
  · intro n hn
    rw [pte_congr hmem]
    exact h.pte n hn

/-- The books after a call of `map`, whose page table was or was not there. -/
theorem maps (hn : n < 1046527) {pa : UInt32} (hmaps : Stocked.Maps m m' D n (pteOf pa flags))
    (hkeeps : ∀ d < 1024, m.mem D d ≠ 0 → m'.mem D d = m.mem D d) {free' taken' : List UInt32}
    (hsupply : Supply m' D used free' data) (htotal : free₀ = free' ++ taken')
    (hcount : taken'.length = data.length + (missing m₀ D (insert n pages)).card)
    (hsub : data ⊆ taken') :
    Span m₀ D used free₀ m' free' taken' data flags (insert n pages) (update addr n pa) where
  supply := hsupply
  total := htotal
  count := hcount
  subset := hsub
  below := by
    intro i hi
    rcases mem_insert.mp hi with rfl | hi
    · exact hn
    · exact h.below i hi
  directory := by
    intro d hd
    rw [hmaps.directory d hd, h.directory d hd, image_insert, mem_insert]
    tauto
  keeps := by
    intro d hd hne
    have hne' : m.mem D d ≠ 0 := by rw [h.keeps d hd hne]; exact hne
    rw [hkeeps d hd hne', h.keeps d hd hne]
  pte := by
    intro i hi
    rw [hmaps.pte i hi, h.pte i hi]
    rcases eq_or_ne i n with rfl | hne
    · rw [if_pos rfl, if_pos (mem_insert_self i pages), update_self]
    · rw [if_neg hne, update_of_ne hne]
      simp [mem_insert, hne]

theorem table_iff (hva : va.toNat / 4096 < 1046527) : m.pde D va = 0 ↔
      m₀.mem D (va.toNat / 4096 / 1024) = 0 ∧ va.toNat / 4096 / 1024 ∉ pages.image (· / 1024) := by
  rw [h.directory _ (by omega), Nat.div_div_eq_div_mul]

section

variable (hva : va.toNat / 4096 < 1046527) (pa : UInt32)
  (henough : ¬Short m₀ D free₀ data.length (insert (va.toNat / 4096) pages))

include hva pa henough

/-- **A page mapped**, with a page from the stack for its page table where that is missing. -/
theorem map_books : ∃ m' free' taken', Paging.map m va pa flags = some m' ∧
      Span m₀ D used free₀ m' free' taken' data flags (insert (va.toNat / 4096) pages)
        (update addr (va.toNat / 4096) pa) ∧
      (∀ q ∈ taken', q ∈ taken ∨ ∃ d < 1023, Entry (m'.mem D d) (frameOf q)) ∧
      ∀ d < 1024, m.mem D d ≠ 0 → m'.mem D d = m.mem D d := by
  by_cases hz : m.pde D va = 0
  · have hcard := missing_insert ((h.table_iff hva).mp hz)
    rcases eq_nil_or_concat free with rfl | ⟨free', p, rfl⟩
    · refine absurd ?_ henough
      rw [Short, h.length_free, length_nil]
      omega
    rw [concat_eq_append] at h
    have hdir : va.toNat / 4194304 < 1021 := by
      have hne : va.toNat / 4194304 ≠ 1021 := fun hc => h.supply.stackTable (hc ▸ hz)
      omega
    obtain ⟨m', hmap, h', hmaps⟩ := h.supply.map_new hdir hz pa flags
    have hkeeps := h.supply.map_keeps hva (fun _ => by simp) hmap
    refine ⟨m', free', p :: taken, hmap, h.maps hva hmaps hkeeps h' ?_ ?_ ?_, ?_, hkeeps⟩
    · rw [h.total, append_assoc]
      rfl
    · rw [length_cons, h.count]
      omega
    · exact List.Subset.trans h.subset (subset_cons_self p taken)
    · intro q hq
      rcases mem_cons.mp hq with rfl | hq
      · exact .inr ⟨_, by omega, h.supply.map_new_table hdir hz hmap⟩
      · exact .inl hq
  · have hcard := missing_insert_of_present (mt (h.table_iff hva).mpr hz)
    obtain ⟨m', hmap, h', hmaps⟩ := h.supply.map hva hz pa flags
    have hkeeps := h.supply.map_keeps hva (fun hc => absurd hc hz) hmap
    refine ⟨m', free, taken, hmap, h.maps hva hmaps hkeeps h' h.total ?_ h.subset,
      fun _ hq => .inl hq, hkeeps⟩
    rw [hcard]
    exact h.count

theorem map : ∃ m' free' taken', Paging.map m va pa flags = some m' ∧
      Span m₀ D used free₀ m' free' taken' data flags (insert (va.toNat / 4096) pages)
        (update addr (va.toNat / 4096) pa) := by
  obtain ⟨m', free', taken', hmap, h', -⟩ := h.map_books hva pa henough
  exact ⟨m', free', taken', hmap, h'⟩

end

/-! ### With nothing mapped below the stack -/

section

variable (hguard : Paging.pte m₀ D 1046526 = 0) (hn : 1046526 ∉ pages)

include hguard hn

theorem stocked : Stocked m D used free data := by
  refine ⟨h.supply, ?_⟩
  rw [h.pte _ (by decide), if_neg hn]
  exact hguard

theorem take_yields :
    Yields (Short m₀ D free₀ (data.length + 1) pages)
      (fun r => r.1 ∉ data ∧ ∃ free', Span m₀ D used free₀ r.2 free' (r.1 :: taken) (r.1 :: data)
        flags pages addr) (pmmAllocPage m) := by
  by_cases hs : Short m₀ D free₀ (data.length + 1) pages
  · obtain rfl : free = [] := by
      rw [Short, h.length_free] at hs
      exact eq_nil_of_length_eq_zero (by omega)
    rw [(h.stocked hguard hn).take_none]
    exact Yields.of_none hs
  · obtain ⟨p, m', free', htake, hp, h'⟩ := h.take hs
    rw [htake]
    exact Yields.of_some ⟨hp, free', h'⟩

theorem map_yields (hva : va.toNat / 4096 < 1046527) (pa : UInt32) :
    Yields (Short m₀ D free₀ data.length (insert (va.toNat / 4096) pages))
      (fun m' => ∃ free' taken', Span m₀ D used free₀ m' free' taken' data flags
        (insert (va.toNat / 4096) pages) (update addr (va.toNat / 4096) pa))
      (Paging.map m va pa flags) := by
  by_cases hs : Short m₀ D free₀ data.length (insert (va.toNat / 4096) pages)
  · -- the one page that is missing is the one for the page table
    have hshort := hs
    rw [Short, h.length_free] at hshort
    have habsent : m₀.mem D (va.toNat / 4096 / 1024) = 0 ∧
        va.toNat / 4096 / 1024 ∉ pages.image (· / 1024) := by
      by_contra hc
      rw [missing_insert_of_present hc] at hshort
      omega
    rw [missing_insert habsent] at hshort
    obtain rfl : free = [] := eq_nil_of_length_eq_zero (by omega)
    rw [(h.stocked hguard hn).map_none ((h.table_iff hva).mpr habsent)]
    exact Yields.of_none hs
  · obtain ⟨m', free', taken', hmap, h'⟩ := h.map hva pa hs
    rw [hmap]
    exact Yields.of_some ⟨free', taken', h'⟩

end

end

end Span

end AthenX.Paging
