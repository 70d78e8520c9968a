import AthenX.Paging.Basic

/-!
# The window on the page tables

With the kernel directory current, the last entry of the directory is the directory itself, so the
array at `KERNEL_TABLES_VIRTUAL` is the page tables one after the other. `SelfMapped m D` says so,
with `D` the frame of the directory. A store to an entry of the window changes one word of one
table. What the tables say about a page is `pte m D n`, by which the operations of `vmm.c` are
specified.
-/

namespace AthenX.Paging

open Option

/-! ### Indices as numbers -/

theorem frameOf_eq (x : UInt32) : frameOf x = x.toNat / 4096 := Word32.toNat_page x

theorem toNat_pgNum (x : UInt32) : (pgNumFromAddr x).toNat = x.toNat / 4096 :=
  Word32.toNat_page x

theorem toNat_pgdirIdx (x : UInt32) : (pgdirIdxFromAddr x).toNat = x.toNat / 4194304 :=
  Word32.toNat_table x

theorem toNat_pgtabIdx (x : UInt32) : (pgtabIdxFromAddr x).toNat = x.toNat / 4096 % 1024 := by
  rw [pgtabIdxFromAddr, Word32.toNat_slot, Word32.toNat_page]

theorem wordOf_eq (x : UInt32) : wordOf x = x.toNat % 4096 / 4 := by
  rw [wordOf, Word32.toNat_word, pageFlagsMask, Word32.toNat_offset]

theorem present_iff (e : UInt32) : present e = true ↔ e.toNat % 2 = 1 := by
  have h := Word32.toNat_bit0 e
  rw [present, pagePresent, bne_iff_ne, ne_eq, ← UInt32.toNat_inj, UInt32.toNat_zero]
  omega

variable {e flags i p va : UInt32} {D d f n : ℕ} {m m' : Machine}

theorem ne_zero_of_present (h : present e = true) : e ≠ 0 := by
  rintro rfl
  exact absurd h (by decide)

/-- The entry `e` is present and refers to frame `f`. -/
def Entry (e : UInt32) (f : ℕ) : Prop := present e = true ∧ frameOf e = f

/-- What `map` writes in a page table. -/
def pteOf (pa flags : UInt32) : UInt32 := (pa &&& pageAddrMask) ||| pagePresent ||| flags

theorem entry_pteOf (pa : UInt32) (hf : flags.toNat < 4096) :
    Entry (pteOf pa flags) (frameOf pa) := by
  refine ⟨?_, ?_⟩
  · rw [present_iff]
    exact Word32.odd_or _ _ (Word32.odd_or_one _)
  · rw [frameOf_eq, frameOf_eq, pteOf, Word32.page_or _ hf,
      Word32.page_or _ (by decide), pageAddrMask, Word32.aligned_page]

theorem pteOf_aligned (pa : UInt32) (hf : flags.toNat < 4096) :
    pteOf pa flags &&& pageAddrMask = pa &&& pageAddrMask := by
  apply UInt32.toNat_inj.mp
  have h := (entry_pteOf pa hf).2
  rw [frameOf_eq, frameOf_eq] at h
  rw [pageAddrMask, Word32.toNat_aligned, Word32.toNat_aligned, h]

theorem entry_table (p : UInt32) : Entry (p ||| pagePresent ||| pageWrite) (frameOf p) := by
  refine ⟨?_, ?_⟩
  · rw [present_iff]
    exact Word32.odd_or _ _ (Word32.odd_or_one _)
  · rw [frameOf_eq, frameOf_eq, Word32.page_or _ (by decide), Word32.page_or _ (by decide)]

/-! ### Writing words -/

namespace Machine

theorem poke_mem (m : Machine) (f i : ℕ) (v : UInt32) (f' i' : ℕ) :
    (m.poke f i v).mem f' i' = if f' = f ∧ i' = i then v else m.mem f' i' := by
  by_cases hf : f' = f
  · subst hf
    by_cases hi : i' = i <;> simp [poke, hi]
  · simp [poke, hf]

/-- The first `n` words of frame `f` set to `v 0`, `v 1`, …. -/
def pokes (m : Machine) (f : ℕ) (v : ℕ → UInt32) (n : ℕ) : Machine :=
  { m with mem := fun f' i => if f' = f ∧ i < n then v i else m.mem f' i }

theorem pokes_zero (m : Machine) (f : ℕ) (v : ℕ → UInt32) : m.pokes f v 0 = m := by
  simp [pokes]

theorem pokes_succ (m : Machine) (f : ℕ) (v : ℕ → UInt32) (n : ℕ) :
    (m.pokes f v n).poke f n (v n) = m.pokes f v (n + 1) := by
  have hmem : ((m.pokes f v n).poke f n (v n)).mem = (m.pokes f v (n + 1)).mem := by
    funext f' i
    rw [poke_mem]
    simp only [pokes]
    by_cases hf : f' = f
    · rcases Nat.lt_trichotomy i n with hi | rfl | hi
      · simp [hi, hi.ne, Nat.lt_succ_of_lt hi]
      · simp [hf]
      · simp [hi.ne', Nat.not_lt.mpr hi.le, show ¬i < n + 1 by omega]
    · simp [hf]
  exact congrArg (fun mem => { m with mem := mem }) hmem

theorem fill_eq {v : ℕ → UInt32} :
    ∀ n, (∀ k < n, (m.pokes f v k).translate (va + 4 * UInt32.ofNat k) = some (f, k)) →
      fill va v n m = some (m.pokes f v n) := by
  intro n
  induction n with
  | zero => intro _; rw [fill, pokes_zero]
  | succ n ih =>
    intro h
    have hn := ih fun k hk => h k (Nat.lt_succ_of_lt hk)
    simp only [fill, hn, bind_eq_bind, bind_some, store, h n (Nat.lt_succ_self n),
      map_some, pokes_succ]

end Machine

/-! ### The self-mapped directory -/

/-- The kernel directory is current and mounted in itself, and its tables lie in frames of their
own. -/
structure SelfMapped (m : Machine) (D : ℕ) : Prop where
  pagingEnabled : m.pagingEnabled = true
  canMap : m.canMap = true
  cr3 : frameOf m.cr3 = D
  directory : m.currentDirectory.directory = kernelDirVirtual
  pages : m.currentDirectory.pages = kernelTablesVirtual
  kernelPages : m.kernelDirectory.pages = kernelTablesVirtual
  self : Entry (m.mem D 1023) D
  mount_ne : m.mem D 1022 ≠ 0
  mount : Entry (m.mem (frameOf (m.mem D 1022)) 1023) D
  present : ∀ i < 1023, m.mem D i ≠ 0 → present (m.mem D i) = true
  ne_dir : ∀ i < 1023, m.mem D i ≠ 0 → frameOf (m.mem D i) ≠ D
  inj : ∀ i < 1023, ∀ j < 1023, m.mem D i ≠ 0 → m.mem D j ≠ 0 →
    frameOf (m.mem D i) = frameOf (m.mem D j) → i = j

/-- Word `n` behind a page's address, through the directory and a table. -/
theorem translate_word {n : UInt32} {a j k F G : ℕ} (hp : m.pagingEnabled = true)
    (hcr3 : frameOf m.cr3 = D) (hF : Entry (m.mem D j) F) (hG : Entry (m.mem F k) G)
    (hva : va.toNat = a) (hj : (a + 4 * n.toNat) / 4194304 = j)
    (hk : (a + 4 * n.toNat) / 4096 % 1024 = k) (hlt : a + 4 * n.toNat < 4294967296)
    (ha : a % 4096 = 0) :
    m.translate (va + 4 * n) = some (G, n.toNat % 1024) := by
  have hfour : (4 : UInt32).toNat = 4 := rfl
  have haddr : (va + 4 * n).toNat = a + 4 * n.toNat := by
    rw [UInt32.toNat_add, UInt32.toNat_mul, hfour, hva]
    omega
  have hw : (a + 4 * n.toNat) % 4096 / 4 = n.toNat % 1024 := by omega
  simp only [Machine.translate, hp, if_true, toNat_pgdirIdx, toNat_pgtabIdx, wordOf_eq, haddr, hcr3,
    hj, hk, hw, hF.1, hF.2, hG.1, hG.2]

/-- The frame at `p` is neither the directory nor one of its tables. -/
def Fresh (m : Machine) (D : ℕ) (p : UInt32) : Prop :=
  frameOf p ≠ D ∧ ∀ i < 1023, m.mem D i ≠ 0 → frameOf (m.mem D i) ≠ frameOf p

/-- The registers and the directory structures agree. -/
structure SameRegs (m m' : Machine) : Prop where
  pagingEnabled : m'.pagingEnabled = m.pagingEnabled
  canMap : m'.canMap = m.canMap
  cr3 : m'.cr3 = m.cr3
  currentDirectory : m'.currentDirectory = m.currentDirectory
  kernelDirectory : m'.kernelDirectory = m.kernelDirectory

theorem sameRegs_poke (m : Machine) (f i : ℕ) (v : UInt32) : SameRegs m (m.poke f i v) :=
  ⟨rfl, rfl, rfl, rfl, rfl⟩

theorem sameRegs_pokes (m : Machine) (f : ℕ) (v : ℕ → UInt32) (n : ℕ) :
    SameRegs m (m.pokes f v n) :=
  ⟨rfl, rfl, rfl, rfl, rfl⟩

namespace SelfMapped

variable {m' : Machine} {D : ℕ}

theorem congr (h : SelfMapped m D) (hr : SameRegs m m') (hdir : ∀ i < 1024, m'.mem D i = m.mem D i)
    (hmount : m'.mem (frameOf (m.mem D 1022)) 1023 = m.mem (frameOf (m.mem D 1022)) 1023) :
    SelfMapped m' D where
  pagingEnabled := hr.pagingEnabled.trans h.pagingEnabled
  canMap := hr.canMap.trans h.canMap
  cr3 := by rw [hr.cr3, h.cr3]
  directory := by rw [hr.currentDirectory, h.directory]
  pages := by rw [hr.currentDirectory, h.pages]
  kernelPages := by rw [hr.kernelDirectory, h.kernelPages]
  self := by rw [hdir 1023 (by decide)]; exact h.self
  mount_ne := by rw [hdir 1022 (by decide)]; exact h.mount_ne
  mount := by rw [hdir 1022 (by decide), hmount]; exact h.mount
  present := by
    intro i hi hne
    rw [hdir i (by omega)] at hne ⊢
    exact h.present i hi hne
  ne_dir := by
    intro i hi hne
    rw [hdir i (by omega)] at hne ⊢
    exact h.ne_dir i hi hne
  inj := by
    intro i hi j hj hne hne'
    rw [hdir i (by omega)] at hne ⊢
    rw [hdir j (by omega)] at hne' ⊢
    exact h.inj i hi j hj hne hne'

theorem present_of_ne (h : SelfMapped m D) {i : ℕ} (hi : i < 1024) (hne : m.mem D i ≠ 0) :
    Paging.present (m.mem D i) = true := by
  rcases Nat.lt_or_ge i 1023 with hlt | hge
  · exact h.present i hlt hne
  · rw [show i = 1023 by omega]
    exact h.self.1

section

variable (h : SelfMapped m D)

include h

/-- `directory[i]` is word `i` of the directory's frame. -/
theorem translate_directory (hi : i.toNat < 1024) :
    m.translate (kernelDirVirtual + 4 * i) = some (D, i.toNat) := by
  have hpresent := h.present 1022 (by decide) h.mount_ne
  rw [translate_word h.pagingEnabled h.cr3 ⟨hpresent, rfl⟩ h.mount (show _ = 0xFFBFF000 from rfl)
    (by omega) (by omega) (by omega) (by omega), Nat.mod_eq_of_lt hi]

/-- `pages[n]` is an entry of table `n / 1024`, when there is such a table. -/
theorem translate_pages {n : UInt32} (hn : n.toNat < 1048576) (hne : m.mem D (n.toNat / 1024) ≠ 0) :
    m.translate (kernelTablesVirtual + 4 * n) =
      some (frameOf (m.mem D (n.toNat / 1024)), n.toNat % 1024) := by
  have htable := h.present_of_ne (show n.toNat / 1024 < 1024 by omega) hne
  exact translate_word h.pagingEnabled h.cr3 h.self ⟨htable, rfl⟩ (show _ = 0xFFC00000 from rfl)
    (by omega) (by omega) (by omega) (by omega)

theorem poke_table {t : ℕ} (hd : d < 1023) (hne : m.mem D d ≠ 0) (hdt : d = 1022 → t ≠ 1023)
    (v : UInt32) : SelfMapped (m.poke (frameOf (m.mem D d)) t v) D := by
  refine h.congr (sameRegs_poke _ _ _ _) ?_ ?_
  · intro i _
    rw [Machine.poke_mem, if_neg]
    rintro ⟨hD, -⟩
    exact h.ne_dir d hd hne hD.symm
  · rw [Machine.poke_mem, if_neg]
    rintro ⟨hf, ht⟩
    -- tables are in distinct frames, so this is the table the directory is mounted in
    exact hdt (h.inj d hd 1022 (by decide) hne h.mount_ne hf.symm) ht.symm

theorem poke_directory (hd : d < 1022) (hp : Fresh m D p) (he : Entry e (frameOf p)) :
    SelfMapped (m.poke D d e) D := by
  have hsame : ∀ i, i ≠ d → (m.poke D d e).mem D i = m.mem D i := by
    intro i hi
    rw [Machine.poke_mem, if_neg fun hc => hi hc.2]
  have hnew : (m.poke D d e).mem D d = e := by
    rw [Machine.poke_mem, if_pos ⟨rfl, rfl⟩]
  have hmount : (m.poke D d e).mem D 1022 = m.mem D 1022 := hsame 1022 (by omega)
  have hne : frameOf (m.mem D 1022) ≠ D := h.ne_dir 1022 (by decide) h.mount_ne
  constructor
  case self => rw [hsame 1023 (by omega)]; exact h.self
  case mount_ne => rw [hmount]; exact h.mount_ne
  case mount =>
    rw [hmount, Machine.poke_mem, if_neg fun hc => hne hc.1]
    exact h.mount
  case present =>
    intro i hi hi0
    by_cases hid : i = d
    · rw [hid, hnew]; exact he.1
    · rw [hsame i hid] at hi0 ⊢
      exact h.present i hi hi0
  case ne_dir =>
    intro i hi hi0
    by_cases hid : i = d
    · rw [hid, hnew, he.2]; exact hp.1
    · rw [hsame i hid] at hi0 ⊢
      exact h.ne_dir i hi hi0
  case inj =>
    intro i hi j hj hi0 hj0 hij
    by_cases hid : i = d
    · by_cases hjd : j = d
      · rw [hid, hjd]
      · rw [hsame j hjd] at hj0 hij
        rw [hid, hnew, he.2] at hij
        exact absurd hij.symm (hp.2 j hj hj0)
    · rw [hsame i hid] at hi0 hij
      by_cases hjd : j = d
      · rw [hjd, hnew, he.2] at hij
        exact absurd hij (hp.2 i hi hi0)
      · rw [hsame j hjd] at hj0 hij
        exact h.inj i hi j hj hi0 hj0 hij
  all_goals first
    | exact h.pagingEnabled | exact h.canMap | exact h.cr3 | exact h.directory
    | exact h.pages | exact h.kernelPages

theorem pokes_table (hd : d < 1022) (hne : m.mem D d ≠ 0) (v : ℕ → UInt32) (n : ℕ) :
    SelfMapped (m.pokes (frameOf (m.mem D d)) v n) D := by
  refine h.congr (sameRegs_pokes _ _ _ _) ?_ ?_
  · intro i _
    simp only [Machine.pokes]
    rw [if_neg]
    rintro ⟨hD, -⟩
    exact h.ne_dir d (by omega) hne hD.symm
  · simp only [Machine.pokes]
    rw [if_neg]
    rintro ⟨hf, -⟩
    have := h.inj d (by omega) 1022 (by decide) hne h.mount_ne hf.symm
    omega

end

end SelfMapped

/-! ### What the tables say -/

/-- The entry of page `n`, or `0` when its page table does not exist. -/
def pte (m : Machine) (D n : ℕ) : UInt32 :=
  if m.mem D (n / 1024) = 0 then 0 else m.mem (frameOf (m.mem D (n / 1024))) (n % 1024)

theorem pte_congr (h : m'.mem = m.mem) (D n : ℕ) : pte m' D n = pte m D n := by
  rw [pte, pte, h]

theorem pte_eq_of_words
    (hdir : m'.mem D (n / 1024) = m.mem D (n / 1024))
    (htable : m.mem D (n / 1024) ≠ 0 → m'.mem (frameOf (m.mem D (n / 1024))) (n % 1024) =
      m.mem (frameOf (m.mem D (n / 1024))) (n % 1024)) : pte m' D n = pte m D n := by
  rw [pte, pte, hdir]
  by_cases hz : m.mem D (n / 1024) = 0
  · rw [if_pos hz, if_pos hz]
  · rw [if_neg hz, if_neg hz, htable hz]

/-- The entry of the page table of `va`. -/
abbrev Machine.pde (m : Machine) (D : ℕ) (va : UInt32) : UInt32 := m.mem D (va.toNat / 4194304)

theorem entry_of_pte (he : Entry (pte m D (va.toNat / 4096)) f) : m.pde D va ≠ 0 ∧
      Entry (m.mem (frameOf (m.pde D va)) (va.toNat / 4096 % 1024)) f := by
  rw [pte, Nat.div_div_eq_div_mul] at he
  by_cases hz : m.mem D (va.toNat / (4096 * 1024)) = 0
  · rw [if_pos hz] at he
    exact absurd rfl (ne_zero_of_present he.1)
  · rw [if_neg hz] at he
    exact ⟨hz, he⟩

/-- The answer of `get_mapping` for an entry. -/
def reading (e va : UInt32) : Option UInt32 :=
  if e = 0 then none else some ((e &&& pageAddrMask) + (va &&& pageFlagsMask))

theorem load_directory (h : SelfMapped m D) (va : UInt32) :
    m.load (m.currentDirectory.directory + 4 * pgdirIdxFromAddr va) = some (m.pde D va) := by
  have hlt := va.toNat_lt
  have hi : (pgdirIdxFromAddr va).toNat < 1024 := by rw [toNat_pgdirIdx]; omega
  rw [h.directory, Machine.load, h.translate_directory hi, toNat_pgdirIdx, map_some]

/-- **`get_mapping` reports what the tables say**, and always returns. -/
theorem getMapping_eq (h : SelfMapped m D) (va : UInt32) :
    getMapping m va = some (reading (pte m D (va.toNat / 4096)) va) := by
  have hlt := va.toNat_lt
  have hn : (pgNumFromAddr va).toNat < 1048576 := by rw [toNat_pgNum]; omega
  have hdiv : va.toNat / 4096 / 1024 = va.toNat / 4194304 := by omega
  rw [getMapping, load_directory h, bind_eq_bind, bind_some, pte, hdiv]
  by_cases hz : m.pde D va = 0
  · simp [hz, reading]
  · have hne : m.mem D ((pgNumFromAddr va).toNat / 1024) ≠ 0 := by
      rw [toNat_pgNum, hdiv]; exact hz
    have hpage : m.load (m.currentDirectory.pages + 4 * pgNumFromAddr va) =
        some (m.mem (frameOf (m.pde D va)) (va.toNat / 4096 % 1024)) := by
      rw [h.pages, Machine.load, h.translate_pages hn hne, toNat_pgNum, hdiv, map_some]
    rw [if_neg hz, if_neg hz, hpage, bind_some, reading]
    by_cases he : m.mem (frameOf (m.pde D va)) (va.toNat / 4096 % 1024) = 0
    · rw [if_neg (not_not.mpr he), if_pos he]
    · rw [if_pos he, if_neg he]

/-! ### `map` and `unmap` -/

theorem pmmAllocPage_same (h : pmmAllocPage m = some (p, m')) : SameRegs m m' ∧ m'.mem = m.mem := by
  rw [pmmAllocPage] at h
  split at h
  · simp only [bind_eq_bind, bind_eq_some_iff] at h
    obtain ⟨q, -, -, rfl⟩ := h
    exact ⟨⟨rfl, rfl, rfl, rfl, rfl⟩, rfl⟩
  · simp only [Option.some.injEq] at h
    obtain ⟨-, rfl⟩ := h
    exact ⟨⟨rfl, rfl, rfl, rfl, rfl⟩, rfl⟩

/-- With paging active, `pmm_alloc_page` pops the page on top of the stack. -/
theorem pmmAllocPage_pop (ha : m.pmmPagingActive = true) (hl : m.load (m.pmmStackLoc - 4) = some p)
    : pmmAllocPage m = some (p, m.popped) := by
  rw [pmmAllocPage, if_pos ha]
  -- the stack pointer plays no part in the translation
  exact congrArg (fun o => o.bind fun p => some (p, m.popped)) hl

/-- The word of the tables that holds the entry of `va`, set to `v`. -/
def setEntry (m : Machine) (D : ℕ) (va v : UInt32) : Machine :=
  m.poke (frameOf (m.pde D va)) (va.toNat / 4096 % 1024) v

section

theorem toNat_lt_of_lt_kernelDir (hva : va < kernelDirVirtual) : va.toNat < 0xFFBFF000 := by
  have := UInt32.lt_iff_toNat_lt.mp hva
  rwa [kernelDirVirtual, show (0xFFBFF000 : UInt32).toNat = 0xFFBFF000 by decide] at this

section

variable (h : SelfMapped m D) (hne : m.pde D va ≠ 0)

include h hne

theorem translate_entry : m.translate (kernelTablesVirtual + 4 * pgNumFromAddr va) =
      some (frameOf (m.pde D va), va.toNat / 4096 % 1024) := by
  have hlt := va.toNat_lt
  have hdiv : va.toNat / 4096 / 1024 = va.toNat / 4194304 := by omega
  have hn : (pgNumFromAddr va).toNat < 1048576 := by rw [toNat_pgNum]; omega
  have hne' : m.mem D ((pgNumFromAddr va).toNat / 1024) ≠ 0 := by
    rw [toNat_pgNum, hdiv]; exact hne
  rw [h.translate_pages hn hne', toNat_pgNum, hdiv]

theorem store_entry (v : UInt32) :
    m.store (m.currentDirectory.pages + 4 * pgNumFromAddr va) v = some (setEntry m D va v) := by
  rw [h.pages, Machine.store, translate_entry h hne, map_some, setEntry]

/-- **`unmap` clears the entry of the page.** -/
theorem unmap_eq : unmap m va = some (setEntry m D va 0) :=
  store_entry h hne 0

end

section

variable (h : SelfMapped m D) (hva : va < kernelDirVirtual) (hne : m.pde D va ≠ 0)

include h hva hne

theorem selfMapped_setEntry (v : UInt32) : SelfMapped (setEntry m D va v) D := by
  have hlt := toNat_lt_of_lt_kernelDir hva
  exact h.poke_table (by omega) hne (by omega) v

theorem setEntry_directory (v : UInt32) (i : ℕ) : (setEntry m D va v).mem D i = m.mem D i := by
  have hlt := toNat_lt_of_lt_kernelDir hva
  rw [setEntry, Machine.poke_mem, if_neg]
  rintro ⟨hD, -⟩
  exact h.ne_dir _ (by omega) hne hD.symm

/-- What `map` does once the page table exists: it writes the entry, and its check comes back. -/
theorem map_tail (v : UInt32) : (do
      let m ← m.store (m.currentDirectory.pages + 4 * pgNumFromAddr va) v
      if kernelAddressSpace ≤ va then do
        let _ ← m.load (m.currentDirectory.pages + 4 * pgNumFromAddr va)
        let _ ← m.load (m.kernelDirectory.pages + 4 * pgNumFromAddr va)
        some m
      else some m) = some (setEntry m D va v) := by
  have h' := selfMapped_setEntry h hva hne v
  have hne' : (setEntry m D va v).pde D va ≠ 0 := by
    rw [Machine.pde, setEntry_directory h hva hne]; exact hne
  rw [store_entry h hne]
  split
  · simp only [h'.pages, h'.kernelPages, Machine.load, translate_entry h' hne', map_some,
      bind_eq_bind, bind_some]
  · rfl

/-- **`map` where the page table exists** writes one entry and asks for no page. -/
theorem map_of_present (pa flags : UInt32) :
    map m va pa flags = some (setEntry m D va (pteOf pa flags)) := by
  have htail := map_tail h hva hne (pteOf pa flags)
  simp only [map, h.canMap, load_directory h, bind_eq_bind, bind_some, if_neg hne] at htail ⊢
  exact htail

end

/-- A cleared page table at `p`, entered in the directory for `va`. -/
def newTable (m : Machine) (D : ℕ) (va p : UInt32) : Machine :=
  (m.poke D (va.toNat / 4194304) (p ||| pagePresent ||| pageWrite)).pokes (frameOf p)
    (fun _ => 0) 1024

/-- The `memset` of `map` clears the new table, through the entry just written. -/
theorem memset_newTable (h : SelfMapped m D) (hd : va.toNat / 4194304 < 1022) (hp : Fresh m D p) :
    (m.poke D (va.toNat / 4194304) (p ||| pagePresent ||| pageWrite)).memsetPage
      (kernelTablesVirtual + 4 * (pgdirIdxFromAddr va * 1024)) = some (newTable m D va p) ∧
    SelfMapped (newTable m D va p) D := by
  have he := entry_table p
  have h1 := h.poke_directory hd hp he
  set m1 := m.poke D (va.toNat / 4194304) (p ||| pagePresent ||| pageWrite) with hm1
  have hentry : m1.pde D va = p ||| pagePresent ||| pageWrite := by
    rw [Machine.pde, Machine.poke_mem, if_pos ⟨rfl, rfl⟩]
  have hne : m1.pde D va ≠ 0 := by rw [hentry]; exact ne_zero_of_present he.1
  have hframe : frameOf (m1.pde D va) = frameOf p := by rw [hentry, he.2]
  have hself : ∀ k, SelfMapped (m1.pokes (frameOf p) (fun _ => 0) k) D := by
    intro k
    rw [← hframe]
    exact h1.pokes_table hd hne _ k
  have hdir : ∀ k, (m1.pokes (frameOf p) (fun _ => 0) k).mem D (va.toNat / 4194304) =
      m1.pde D va := by
    intro k
    simp only [Machine.pokes]
    rw [if_neg fun hc => hp.1 hc.1.symm]
  refine ⟨?_, hself 1024⟩
  apply Machine.fill_eq
  intro k hk
  have hslot : (pgdirIdxFromAddr va * 1024 + UInt32.ofNat k).toNat =
      va.toNat / 4194304 * 1024 + k := by
    rw [UInt32.toNat_add, UInt32.toNat_mul, toNat_pgdirIdx, UInt32.toNat_ofNat',
      show (1024 : UInt32).toNat = 1024 by decide]
    omega
  have hdiv : (va.toNat / 4194304 * 1024 + k) / 1024 = va.toNat / 4194304 := by omega
  have htr := (hself k).translate_pages
    (by rw [hslot]; omega) (by rw [hslot, hdiv, hdir]; exact hne)
  rw [hslot, hdiv, hdir, UInt32.mul_add, ← UInt32.add_assoc] at htr
  rw [htr]
  congr 2
  omega

theorem SelfMapped.index_lt (h : SelfMapped m D) (hva : va < kernelDirVirtual)
    (hz : m.pde D va = 0) : va.toNat / 4194304 < 1022 := by
  have hlt := toNat_lt_of_lt_kernelDir hva
  have hne : va.toNat / 4194304 ≠ 1022 := fun hc => h.mount_ne (hc ▸ hz)
  omega

theorem SelfMapped.pmmAllocPage (h : SelfMapped m D) {m1 : Machine}
    (ha : pmmAllocPage m = some (p, m1)) (hp : Fresh m D p) :
    m1.mem = m.mem ∧ SelfMapped m1 D ∧ Fresh m1 D p := by
  obtain ⟨hregs, hmem⟩ := pmmAllocPage_same ha
  refine ⟨hmem, h.congr hregs (fun i _ => by rw [hmem]) (by rw [hmem]), ?_⟩
  rw [Fresh, hmem]
  exact hp

/-- **`map` where the page table has to be created** takes a page, clears it and writes the entry.
-/
theorem map_of_absent (h : SelfMapped m D) (hva : va < kernelDirVirtual)
    (hz : m.pde D va = 0) {m1 : Machine} (ha : pmmAllocPage m = some (p, m1)) (hp : Fresh m D p)
    (pa flags : UInt32) :
    SelfMapped (newTable m1 D va p) D ∧ (newTable m1 D va p).pde D va ≠ 0 ∧
      map m va pa flags = some (setEntry (newTable m1 D va p) D va (pteOf pa flags)) := by
  obtain ⟨-, h1, hp1⟩ := h.pmmAllocPage ha hp
  have hd := h.index_lt hva hz
  obtain ⟨hset, hself⟩ := memset_newTable h1 hd hp1
  have hne : (newTable m1 D va p).pde D va ≠ 0 := by
    simp only [newTable, Machine.pokes, Machine.pde]
    rw [if_neg fun hc => hp.1 hc.1.symm, Machine.poke_mem, if_pos ⟨rfl, rfl⟩]
    exact ne_zero_of_present (entry_table p).1
  refine ⟨hself, hne, ?_⟩
  have hi : (pgdirIdxFromAddr va).toNat < 1024 := by rw [toNat_pgdirIdx]; omega
  have hstore : m1.store (m1.currentDirectory.directory + 4 * pgdirIdxFromAddr va)
      (p ||| pagePresent ||| pageWrite) =
      some (m1.poke D (va.toNat / 4194304) (p ||| pagePresent ||| pageWrite)) := by
    rw [h1.directory, Machine.store, h1.translate_directory hi, toNat_pgdirIdx, map_some]
  have hpages : (m1.poke D (va.toNat / 4194304)
      (p ||| pagePresent ||| pageWrite)).currentDirectory.pages = kernelTablesVirtual := h1.pages
  have htail := map_tail hself hva hne (pteOf pa flags)
  simp only [map, h.canMap, load_directory h, bind_eq_bind, bind_some,
    if_pos hz, ha, hstore, hpages, hset] at htail ⊢
  exact htail

/-! ### The effect on the tables -/

theorem pte_setEntry (h : SelfMapped m D) (hva : va < kernelDirVirtual)
    (hne : m.pde D va ≠ 0) (v : UInt32) (hn : n < 1048576) :
    pte (setEntry m D va v) D n = if n = va.toNat / 4096 then v else pte m D n := by
  have hlt := toNat_lt_of_lt_kernelDir hva
  rw [pte, setEntry_directory h hva hne, pte]
  by_cases hz : m.mem D (n / 1024) = 0
  · have hn' : n ≠ va.toNat / 4096 := by
      rintro rfl
      rw [Nat.div_div_eq_div_mul] at hz
      exact hne hz
    rw [if_pos hz, if_pos hz, if_neg hn']
  · rw [if_neg hz, if_neg hz, setEntry, Machine.poke_mem]
    refine if_congr ⟨?_, ?_⟩ rfl rfl
    · rintro ⟨hf, ht⟩
      rcases Nat.lt_or_ge (n / 1024) 1023 with hlt' | hge
      · have := h.inj _ hlt' _ (by omega) hz hne hf
        omega
      · -- the last table is the directory, which is no page table below it
        rw [show n / 1024 = 1023 by omega, h.self.2] at hf
        exact absurd hf.symm (h.ne_dir _ (by omega) hne)
    · rintro rfl
      rw [Nat.div_div_eq_div_mul]
      exact ⟨rfl, rfl⟩

theorem newTable_directory (hp : Fresh m D p) (i : ℕ) :
    (newTable m D va p).mem D i =
      if i = va.toNat / 4194304 then p ||| pagePresent ||| pageWrite else m.mem D i := by
  simp only [newTable, Machine.pokes]
  rw [if_neg fun hc => hp.1 hc.1.symm, Machine.poke_mem]
  simp

/-- **A new page table changes no translation outside the window.** -/
theorem pte_newTable (h : SelfMapped m D) (hd : va.toNat / 4194304 < 1022)
    (hz : m.pde D va = 0) (hp : Fresh m D p) (hn : n < 1048576) :
    pte (newTable m D va p) D n =
      if n = 1047552 + va.toNat / 4194304 then p ||| pagePresent ||| pageWrite
      else pte m D n := by
  have he := entry_table p
  have hdir : ∀ i, (newTable m D va p).mem D i = _ := newTable_directory hp
  rw [pte, hdir, pte]
  by_cases hnd : n / 1024 = va.toNat / 4194304
  · -- the pages of the new table: it did not exist, and now it is empty
    rw [if_pos hnd, if_neg (ne_zero_of_present he.1), he.2, hnd, if_pos hz, if_neg (by omega)]
    simp only [newTable, Machine.pokes]
    rw [if_pos ⟨trivial, Nat.mod_lt _ (by decide)⟩]
  · rw [if_neg hnd]
    by_cases hz' : m.mem D (n / 1024) = 0
    · rw [if_pos hz', if_pos hz', if_neg]
      rintro rfl
      rw [show (1047552 + va.toNat / 4194304) / 1024 = 1023 by omega] at hz'
      exact ne_zero_of_present h.self.1 hz'
    · rw [if_neg hz', if_neg hz']
      rcases Nat.lt_or_ge (n / 1024) 1023 with hlt' | hge
      · rw [if_neg (show n ≠ 1047552 + va.toNat / 4194304 by omega)]
        simp only [newTable, Machine.pokes]
        rw [if_neg fun hc => hp.2 _ hlt' hz' hc.1, Machine.poke_mem,
          if_neg fun hc => h.ne_dir _ hlt' hz' hc.1]
      · rw [show n / 1024 = 1023 by omega, h.self.2, hdir]
        exact if_congr (by omega) rfl rfl

end

end AthenX.Paging
