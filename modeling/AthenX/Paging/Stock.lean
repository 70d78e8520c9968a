import AthenX.Paging.PageStack

/-!
# Taking pages and mapping them

`Holds` describes the page stack while all page tables lie below `pmm_location`. `Supply` also
covers page tables that `map` has taken from the stack. It names the pages of the stack, `used` and
`free`, and the pages `data` taken for other purposes, none of which is a table. So a store to
`data` changes no translation. `Stocked` adds that the page below the stack is not mapped, where
`pmm_alloc_page` reads when there is no page left.
-/

namespace AthenX.Paging

open List

variable {m : Machine} {D n : ℕ} {free used : List UInt32} {flags pa q va : UInt32}

/-- Directory `D` is current, the stack is made of `used` and holds `free`, and none of these and of
`data` is a page table. -/
structure Supply (m : Machine) (D : ℕ) (used free data : List UInt32) : Prop where
  selfMapped : SelfMapped m D
  stackTable : m.mem D 1021 ≠ 0
  pile : Pile m D used free
  nodup : (used ++ (free ++ data)).Nodup
  aligned : ∀ p ∈ used ++ (free ++ data), p.toNat % 4096 = 0
  fresh : ∀ p ∈ used ++ (free ++ data), Fresh m D p

/-- A supply of pages, with nothing mapped below the stack. -/
structure Stocked (m : Machine) (D : ℕ) (used free data : List UInt32) : Prop
    extends supply : Supply m D used free data where
  /-- The page below the stack is not mapped. -/
  guard : pte m D 1046526 = 0

theorem Holds.supply (h : Holds m D used free) : Supply m D used free [] where
  selfMapped := h.layout.selfMapped
  stackTable := h.layout.stackTable
  pile := h.pile
  nodup := by simpa using h.nodup
  aligned := by simpa using h.aligned
  fresh := by
    intro p hp
    have hhigh := h.page_high (by simpa using hp)
    refine ⟨?_, fun i hi hne => ?_⟩
    · have hdir := h.layout.low_dir
      omega
    · have htable := h.layout.low_table i hi hne
      omega

/-- What `map` for page `n` did: below the window, only its entry and maybe its table are new. -/
structure Stocked.Maps (m m' : Machine) (D n : ℕ) (e : UInt32) : Prop where
  directory : ∀ d < 1023, m'.mem D d = 0 ↔ m.mem D d = 0 ∧ d ≠ n / 1024
  pte : ∀ i < 1047552, Paging.pte m' D i = if i = n then e else Paging.pte m D i

namespace Supply

variable {m m' : Machine} {D : ℕ} {used free data : List UInt32} {p : UInt32}

theorem transport (h : Supply m D used free data) (hs : SelfMapped m' D)
    (hactive : m'.pmmPagingActive = m.pmmPagingActive) (hmax : m'.pmmStackMax = m.pmmStackMax)
    (hloc : m'.pmmStackLoc = m.pmmStackLoc) (htable : m'.mem D 1021 ≠ 0)
    (hpte : ∀ n, 1046527 ≤ n → n < 1047551 → pte m' D n = pte m D n)
    (hfresh : ∀ p ∈ used ++ (free ++ data), Fresh m' D p)
    (hstack : ∀ q ∈ used, ∀ i, m'.mem (frameOf q) i = m.mem (frameOf q) i) :
    Supply m' D used free data where
  selfMapped := hs
  stackTable := htable
  pile := h.pile.frames hactive hmax hloc hpte hstack
  nodup := h.nodup
  aligned := h.aligned
  fresh := hfresh

/-- Pages of `data` may be forgotten. -/
theorem forget (h : Supply m D used free data) {data' : List UInt32} (hd : data'.Sublist data) :
    Supply m D used free data' := by
  have hsub : (used ++ (free ++ data')).Sublist (used ++ (free ++ data)) :=
    (hd.append_left free).append_left used
  exact ⟨h.selfMapped, h.stackTable, h.pile, h.nodup.sublist hsub,
    fun p hp => h.aligned p (hsub.subset hp), fun p hp => h.fresh p (hsub.subset hp)⟩

/-- **`pmm_alloc_page`** returns the page on top of the stack. -/
theorem take (h : Supply m D used (free ++ [p]) data) :
    ∃ m', pmmAllocPage m = some (p, m') ∧ m'.mem = m.mem ∧
      Supply m' D used free (p :: data) := by
  obtain ⟨htake, hpile⟩ := h.pile.pop h.selfMapped.walks
  have hlist : used ++ (free ++ p :: data) = used ++ (free ++ [p] ++ data) := by simp
  refine ⟨_, htake, rfl, ?_, h.stackTable, hpile, ?_, ?_, ?_⟩
  · exact h.selfMapped.congr ⟨rfl, rfl, rfl, rfl, rfl⟩ (fun _ _ => rfl) rfl
  · rw [hlist]
    exact h.nodup
  · rw [hlist]
    exact h.aligned
  · rw [hlist]
    exact h.fresh

/-! ### Storing to a page and mapping one -/

theorem pte_poke_fresh (h : SelfMapped m D) (hp : Fresh m D p) (i : ℕ) (v : UInt32)
    (hn : n < 1048576) : pte (m.poke (frameOf p) i v) D n = pte m D n := by
  have hdir : (m.poke (frameOf p) i v).mem D (n / 1024) = m.mem D (n / 1024) := by
    rw [Machine.poke_mem, if_neg fun hc => hp.1 hc.1.symm]
  refine pte_eq_of_words hdir fun hz => ?_
  rw [Machine.poke_mem, if_neg]
  rintro ⟨hf, -⟩
  rcases Nat.lt_or_ge (n / 1024) 1023 with hlt | hge
  · exact hp.2 _ hlt hz hf
  · rw [show n / 1024 = 1023 by omega, h.self.2] at hf
    exact hp.1 hf.symm

theorem mem_data (hp : p ∈ data) : p ∈ used ++ (free ++ data) :=
  mem_append_right _ (mem_append_right _ hp)

/-- **A store to a page of `data`** leaves the tables and the stack alone. -/
theorem store (h : Supply m D used free data) (hp : p ∈ data) (i : ℕ) (v : UInt32) :
    Supply (m.poke (frameOf p) i v) D used free data := by
  have hs := h.selfMapped
  have hfresh := h.fresh p (mem_data hp)
  have hdir : ∀ j, (m.poke (frameOf p) i v).mem D j = m.mem D j := by
    intro j
    rw [Machine.poke_mem, if_neg fun hc => hfresh.1 hc.1.symm]
  refine h.transport ?_ rfl rfl rfl ?_ ?_ ?_ ?_
  · refine hs.congr (sameRegs_poke _ _ _ _) (fun j _ => hdir j) ?_
    rw [Machine.poke_mem, if_neg fun hc => hfresh.2 1022 (by decide) hs.mount_ne hc.1]
  · rw [hdir]
    exact h.stackTable
  · intro n _ hn
    exact pte_poke_fresh hs hfresh i v (by omega)
  · intro q hq
    rw [Fresh]
    simp only [hdir]
    exact h.fresh q hq
  · intro q hq j
    have hne : frameOf q ≠ frameOf p := fun hf => (nodup_append.mp h.nodup).2.2 q hq p
      (mem_append_right _ hp) (eq_of_frameOf_eq (h.aligned q (mem_append_left _ hq))
        (h.aligned p (mem_data hp)) hf)
    rw [Machine.poke_mem, if_neg fun hc => hne hc.1]

theorem lt_kernelDirVirtual (hva : va.toNat / 4096 < 1046527) : va < kernelDirVirtual := by
  rw [UInt32.lt_iff_toNat_lt, kernelDirVirtual,
    show (0xFFBFF000 : UInt32).toNat = 0xFFBFF000 by decide]
  omega

theorem setEntry (h : Supply m D used free data) (hva : va.toNat / 4096 < 1046527)
    (hne : m.pde D va ≠ 0) (v : UInt32) :
    Supply (Paging.setEntry m D va v) D used free data := by
  have hs := h.selfMapped
  have hlow := lt_kernelDirVirtual hva
  have hdir := setEntry_directory hs hlow hne v
  refine h.transport (selfMapped_setEntry hs hlow hne _) rfl rfl rfl ?_ ?_ ?_ ?_
  · rw [hdir]
    exact h.stackTable
  · intro n hlo hn
    rw [pte_setEntry hs hlow hne _ (by omega), if_neg (by omega)]
  · intro q hq
    rw [Fresh]
    simp only [hdir]
    exact h.fresh q hq
  · intro q hq j
    have hfresh := h.fresh q (mem_append_left _ hq)
    rw [Paging.setEntry, Machine.poke_mem, if_neg]
    rintro ⟨hf, -⟩
    exact hfresh.2 _ (by omega) hne hf.symm

theorem fresh_newTable (hp : Fresh m D p) (hq : Fresh m D q)
    (hne : frameOf q ≠ frameOf p) : Fresh (newTable m D va p) D q := by
  refine ⟨hq.1, fun i hi hi0 => ?_⟩
  rw [newTable_directory hp] at hi0 ⊢
  by_cases hid : i = va.toNat / 4194304
  · rw [if_pos hid, (entry_table p).2]
    exact hne.symm
  · rw [if_neg hid] at hi0 ⊢
    exact hq.2 i hi hi0

theorem newTable (h : Supply m D used free (p :: data))
    (hva : va.toNat / 4194304 < 1021) (hz : m.pde D va = 0) :
    Supply (Paging.newTable m D va p) D used free data := by
  have hfresh := h.fresh p (mem_data mem_cons_self)
  have h' := h.forget (sublist_cons_self p data)
  have hne : ∀ q ∈ used ++ (free ++ data), frameOf q ≠ frameOf p := by
    intro q hq hf
    have hperm : (used ++ (free ++ p :: data)).Perm (p :: (used ++ (free ++ data))) := by
      rw [← append_assoc, ← append_assoc]
      exact perm_middle
    have heq := eq_of_frameOf_eq (h'.aligned q hq) (h.aligned p (mem_data mem_cons_self)) hf
    exact (nodup_cons.mp (hperm.nodup_iff.mp h.nodup)).1 (heq ▸ hq)
  refine h'.transport (memset_newTable h.selfMapped (by omega) hfresh).2 rfl rfl rfl ?_ ?_ ?_ ?_
  · rw [newTable_directory hfresh, if_neg (by omega)]
    exact h.stackTable
  · intro n hlo hn
    rw [pte_newTable h.selfMapped (by omega) hz hfresh (by omega), if_neg (by omega)]
  · intro q hq
    exact fresh_newTable hfresh (h'.fresh q hq) (hne q hq)
  · intro q hq j
    have hq' : q ∈ used ++ (free ++ data) := mem_append_left _ hq
    simp only [Paging.newTable, Machine.pokes]
    rw [if_neg fun hc => hne q hq' hc.1, Machine.poke_mem, if_neg fun hc => (h'.fresh q hq').1 hc.1]

/-- **`map` where the page table exists**, below the stack. -/
theorem map (h : Supply m D used free data) (hva : va.toNat / 4096 < 1046527)
    (hne : m.mem D (va.toNat / 4194304) ≠ 0) (pa flags : UInt32) :
    ∃ m', Paging.map m va pa flags = some m' ∧ Supply m' D used free data ∧
      Stocked.Maps m m' D (va.toNat / 4096) (pteOf pa flags) := by
  have hlow := lt_kernelDirVirtual hva
  refine ⟨_, map_of_present h.selfMapped hlow hne pa flags, h.setEntry hva hne _, ?_, ?_⟩
  · intro d _
    rw [setEntry_directory h.selfMapped hlow hne, Nat.div_div_eq_div_mul]
    exact ⟨fun hz => ⟨hz, fun hd => hne (hd ▸ hz)⟩, And.left⟩
  · intro i hi
    exact pte_setEntry h.selfMapped hlow hne _ (by omega)

section

variable (h : Supply m D used (free ++ [p]) data) (hva : va.toNat / 4194304 < 1021)
  (hz : m.pde D va = 0)

include h hva hz

/-- **`map` where the page table has to be created**: the top of the stack becomes the table. -/
theorem map_new (pa flags : UInt32) :
    ∃ m', Paging.map m va pa flags = some m' ∧ Supply m' D used free data ∧
      Stocked.Maps m m' D (va.toNat / 4096) (pteOf pa flags) := by
  obtain ⟨m1, htake, hmem, h1⟩ := h.take
  have hpage : va.toNat / 4096 < 1046527 := by omega
  have hlow := lt_kernelDirVirtual hpage
  have hfresh := h.fresh p (by simp)
  have hfresh1 := h1.fresh p (by simp)
  have hz1 : m1.pde D va = 0 := by rw [Machine.pde, hmem]; exact hz
  obtain ⟨hself, hne, hmap⟩ := map_of_absent h.selfMapped hlow hz htake hfresh pa flags
  refine ⟨_, hmap, (h1.newTable hva hz1).setEntry hpage hne _, ?_, ?_⟩
  · intro d _
    rw [setEntry_directory hself hlow hne, newTable_directory hfresh1, hmem, Nat.div_div_eq_div_mul]
    by_cases hd : d = va.toNat / 4194304
    · rw [if_pos hd]
      exact iff_of_false (ne_zero_of_present (entry_table p).1) fun hc => hc.2 hd
    · rw [if_neg hd]
      exact ⟨fun hz => ⟨hz, hd⟩, And.left⟩
  · intro i hi
    rw [pte_setEntry hself hlow hne _ (by omega),
      pte_newTable h1.selfMapped (by omega) hz1 hfresh1 (by omega), pte_congr hmem,
      if_neg (show i ≠ 1047552 + va.toNat / 4194304 by omega)]

theorem map_new_table (hmap : Paging.map m va pa flags = some m') :
    Entry (m'.mem D (va.toNat / 4194304)) (frameOf p) := by
  obtain ⟨m1, htake, hmem, h1⟩ := h.take
  have hpage : va.toNat / 4096 < 1046527 := by omega
  have hlow := lt_kernelDirVirtual hpage
  have hfresh1 := h1.fresh p (by simp)
  obtain ⟨hself, hne, hmap1⟩ :=
    map_of_absent h.selfMapped hlow hz htake (h.fresh p (by simp)) pa flags
  cases hmap.symm.trans hmap1
  rw [setEntry_directory hself hlow hne, newTable_directory hfresh1, if_pos rfl]
  exact entry_table p

end

/-- **`map` changes no entry of the directory** that is there. -/
theorem map_keeps (h : Supply m D used free data)
    (hva : va.toNat / 4096 < 1046527) (hfree : m.pde D va = 0 → free ≠ [])
    (hmap : Paging.map m va pa flags = some m') :
    ∀ d < 1024, m.mem D d ≠ 0 → m'.mem D d = m.mem D d := by
  have hframe : HasFrame m D va := by
    intro hz
    obtain ⟨free', p, rfl⟩ := (eq_nil_or_concat free).resolve_left (hfree hz)
    rw [concat_eq_append] at h
    obtain ⟨m1, htake, -, -⟩ := h.take
    exact ⟨p, m1, htake, h.fresh p (by simp)⟩
  obtain ⟨m1, hmap1, hwrites⟩ := map_writes h.selfMapped (lt_kernelDirVirtual hva) hframe pa flags
  cases hmap.symm.trans hmap1
  exact hwrites.keeps

end Supply

/-! ### With nothing mapped below the stack -/

namespace Stocked

variable {m m' : Machine} {D : ℕ} {used free data : List UInt32} {p : UInt32}

theorem translate_none (h : SelfMapped m D) (he : pte m D (va.toNat / 4096) = 0) :
    m.translate va = none := by
  have hlt := va.toNat_lt
  rw [pte, Nat.div_div_eq_div_mul] at he
  by_cases hz : m.mem D (va.toNat / (4096 * 1024)) = 0
  · simp only [Machine.translate, h.pagingEnabled, if_true, h.cr3, toNat_pgdirIdx, hz]
    rw [if_neg (by decide)]
  · rw [if_neg hz] at he
    have hp := h.present_of_ne (show va.toNat / (4096 * 1024) < 1024 by omega) hz
    simp only [Machine.translate, h.pagingEnabled, if_true, h.cr3, toNat_pgdirIdx, toNat_pgtabIdx,
      hp, he]
    rw [if_neg (by decide)]

/-- **`pmm_alloc_page` on an empty stack** reads below it, where nothing is mapped. -/
theorem take_none (h : Stocked m D used [] data) : pmmAllocPage m = none := by
  have hloc : m.pmmStackLoc.toNat = 0xFF7FF000 := by simpa using h.pile.loc
  have hsub : (m.pmmStackLoc - 4).toNat = 0xFF7FEFFC := by
    rw [UInt32.toNat_sub_of_le _ _ (UInt32.le_iff_toNat_le.mpr (by rw [hloc]; decide)), hloc]
    rfl
  have hs : SelfMapped m.popped D :=
    h.selfMapped.congr ⟨rfl, rfl, rfl, rfl, rfl⟩ (fun _ _ => rfl) rfl
  have hguard : pte m.popped D
      ((m.pmmStackLoc - 4).toNat / 4096) = 0 := by
    rw [hsub]
    exact h.guard
  have htr := translate_none hs hguard
  rw [pmmAllocPage, if_pos h.pile.active]
  simp only [Machine.load, htr]
  rfl

/-- **`map` needs a page table and there is no page.** -/
theorem map_none (h : Stocked m D used [] data) (hz : m.pde D va = 0)
    (pa flags : UInt32) : Paging.map m va pa flags = none := by
  have hs := h.selfMapped
  simp only [Paging.map, hs.canMap, if_true, load_directory hs, Option.bind_eq_bind,
    Option.bind_some, if_pos hz, h.take_none, Option.bind_none]

theorem Maps.guard {e : UInt32} (hmaps : Maps m m' D n e) (hn : n < 1046526)
    (h : Paging.pte m D 1046526 = 0) : Paging.pte m' D 1046526 = 0 := by
  rw [hmaps.pte _ (by decide), if_neg (by omega)]
  exact h

end Stocked

end AthenX.Paging
