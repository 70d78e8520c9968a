import AthenX.Paging.Mount
import AthenX.Paging.PageStack

/-!
# What the paging code stands on

While `vmm.c` works on other directories it relies on a few frames: the current directory and the
kernel's, three page tables, and the stack. `Ground` survives every store to another frame
(`Ground.congr`), taking and freeing pages, and mounting.
-/

namespace AthenX.Paging

/-- One of the page tables the code works through. -/
def IsTable (m : Machine) (D T K w f : ℕ) : Prop :=
  f = D ∨ f = T ∨ f = K ∨ f = frameOf (m.mem D (w - 1)) ∨ f = frameOf (m.mem D 1022)

/-- One of these page tables, or a page of the stack. -/
def Rests (m : Machine) (D T K w : ℕ) (used : List UInt32) (f : ℕ) : Prop :=
  IsTable m D T K w f ∨ ∃ q ∈ used, f = frameOf q

/-- Directory `D` is current, and the kernel's in frame `K` is mounted. The stack is made of the
pages `used`, no page tables, and holds `free`. -/
structure Ground (m : Machine) (D T K w : ℕ) (used free : List UInt32) : Prop where
  current : Current m D T w
  kernelDirectory : m.kernelDirectory.directory = kernelDirVirtual
  kernelWindow : Entry (m.mem D 1023) K
  kernelTable : present (m.mem D 1022) = true
  kernelMount : Entry (m.mem (frameOf (m.mem D 1022)) 1023) K
  table_ne : frameOf (m.mem D 1022) ≠ D ∧ frameOf (m.mem D 1022) ≠ T
  pile : Pile m D used free
  inj : ∀ (i j : ℕ) (q r : UInt32), used[i]? = some q → used[j]? = some r →
    frameOf q = frameOf r → i = j
  apart : ∀ q ∈ used, ¬IsTable m D T K w (frameOf q)

/-- The registers, and the variables of the page stack but for its pointer. -/
structure SameSetup (m m' : Machine) : Prop where
  regs : SameRegs m m'
  active : m'.pmmPagingActive = m.pmmPagingActive
  max : m'.pmmStackMax = m.pmmStackMax
  location : m'.pmmLocation = m.pmmLocation

/-- The memory and the pointer may be any. -/
theorem sameSetup_mem {m : Machine} {mem : ℕ → ℕ → UInt32} {loc : UInt32} :
    SameSetup m { m with mem := mem, pmmStackLoc := loc } :=
  ⟨⟨rfl, rfl, rfl, rfl, rfl⟩, rfl, rfl, rfl⟩

theorem SameSetup.refl (m : Machine) : SameSetup m m := sameSetup_mem

theorem SameSetup.trans {m m' m'' : Machine} (h : SameSetup m m') (h' : SameSetup m' m'') :
    SameSetup m m'' :=
  ⟨⟨h'.regs.pagingEnabled.trans h.regs.pagingEnabled, h'.regs.canMap.trans h.regs.canMap,
    h'.regs.cr3.trans h.regs.cr3, h'.regs.currentDirectory.trans h.regs.currentDirectory,
    h'.regs.kernelDirectory.trans h.regs.kernelDirectory⟩, h'.active.trans h.active,
    h'.max.trans h.max, h'.location.trans h.location⟩

/-- The words of the tables that `Current` and the stack need. -/
def IsNeeded (m : Machine) (D T K w f i : ℕ) : Prop :=
  f = D ∧ (i = w ∨ i = w - 1 ∨ 1021 ≤ i) ∨ f = T ∧ i = 1023 ∨ f = K ∧ i = 1021 ∨
    f = frameOf (m.mem D (w - 1)) ∧ i = 1023 ∨ f = frameOf (m.mem D 1022)

namespace Ground

variable {m m' : Machine} {D T K w : ℕ} {used free : List UInt32} {p : UInt32}

section

variable (h : Ground m D T K w used free)

include h

theorem pte_eq (hmem : ∀ f i, IsNeeded m D T K w f i → m'.mem f i = m.mem f i) {n : ℕ}
    (hlo : 1046527 ≤ n) (hhi : n < 1047551) : pte m' D n = pte m D n := by
  refine pte_eq_of_words (hmem D _ (.inl ⟨rfl, .inr (.inr (by omega))⟩)) fun _ => ?_
  by_cases hn : n = 1046527
  · rw [hn, h.current.slots.2]
    exact hmem T _ (.inr (.inl ⟨rfl, by decide⟩))
  · rw [show n / 1024 = 1022 by omega]
    exact hmem _ _ (.inr (.inr (.inr (.inr rfl))))

theorem current_of_needed (hr : SameRegs m m')
    (hmem : ∀ f i, IsNeeded m D T K w f i → m'.mem f i = m.mem f i) : Current m' D T w := by
  have hc := h.current
  have hw := hc.window
  have hdir : ∀ i, i = w ∨ i = w - 1 ∨ 1021 ≤ i → m'.mem D i = m.mem D i :=
    fun i hi => hmem D i (.inl ⟨rfl, hi⟩)
  obtain ⟨M, hM, hM'⟩ := hc.mount
  obtain ⟨K', T', hK', hTK, hT'⟩ := hc.kernel
  obtain rfl : K' = K := hK'.2.symm.trans h.kernelWindow.2
  constructor
  case pagingEnabled => exact hr.pagingEnabled.trans hc.pagingEnabled
  case canMap => exact hr.canMap.trans hc.canMap
  case cr3 => rw [hr.cr3]; exact hc.cr3
  case window => exact hw
  case directory => rw [hr.currentDirectory]; exact hc.directory
  case pages => rw [hr.currentDirectory]; exact hc.pages
  case self => rw [hdir w (by omega)]; exact hc.self
  case mount =>
    refine ⟨M, ?_, ?_⟩
    · rw [hdir (w - 1) (by omega)]
      exact hM
    · rw [hmem M 1023 (.inr (.inr (.inr (.inl ⟨hM.2.symm, rfl⟩))))]
      exact hM'
  case slots => rw [hdir 1021 (by omega)]; exact hc.slots
  case slots_ne => exact hc.slots_ne
  case kernelPages => rw [hr.kernelDirectory]; exact hc.kernelPages
  case kernel =>
    refine ⟨K', T', ?_, hTK, ?_⟩
    · rw [hdir 1023 (by omega)]
      exact hK'
    · rw [hmem K' 1021 (.inr (.inr (.inl ⟨rfl, rfl⟩)))]
      exact hT'

theorem of_pile {free' : List UInt32} (hs : SameSetup m m')
    (hmem : ∀ f i, IsNeeded m D T K w f i → m'.mem f i = m.mem f i) (hpile : Pile m' D used free') :
    Ground m' D T K w used free' := by
  have hdir : ∀ i, i = w ∨ i = w - 1 ∨ 1021 ≤ i → m'.mem D i = m.mem D i :=
    fun i hi => hmem D i (.inl ⟨rfl, hi⟩)
  have h1022 := hdir 1022 (by omega)
  have htable : ∀ f, IsTable m' D T K w f → IsTable m D T K w f := by
    intro f
    rw [IsTable, hdir (w - 1) (by omega), h1022]
    exact id
  have hlast : m'.mem (frameOf (m.mem D 1022)) 1023 = m.mem (frameOf (m.mem D 1022)) 1023 :=
    hmem _ _ (.inr (.inr (.inr (.inr rfl))))
  refine ⟨h.current_of_needed hs.regs hmem, ?_, ?_, ?_, ?_, ?_, hpile, h.inj,
    fun q hq ht => h.apart q hq (htable _ ht)⟩
  · rw [hs.regs.kernelDirectory]
    exact h.kernelDirectory
  · rw [hdir 1023 (by omega)]
    exact h.kernelWindow
  · rw [h1022]
    exact h.kernelTable
  · rw [h1022, hlast]
    exact h.kernelMount
  · rw [h1022]
    exact h.table_ne

/-- **The ground survives** a change that spares the needed words and the stack. -/
theorem of_needed (hs : SameSetup m m') (hloc : m'.pmmStackLoc = m.pmmStackLoc)
    (hmem : ∀ f i, IsNeeded m D T K w f i → m'.mem f i = m.mem f i)
    (hused : ∀ q ∈ used, ∀ i, m'.mem (frameOf q) i = m.mem (frameOf q) i) :
    Ground m' D T K w used free :=
  h.of_pile hs hmem
    (h.pile.frames hs.active hs.max hloc (fun _ hlo hhi => h.pte_eq hmem hlo hhi) hused)

end

theorem isTable_of_needed {f i : ℕ} (h : IsNeeded m D T K w f i) : IsTable m D T K w f := by
  rcases h with ⟨h, -⟩ | ⟨h, -⟩ | ⟨h, -⟩ | ⟨h, -⟩ | h
  · exact .inl h
  · exact .inr (.inl h)
  · exact .inr (.inr (.inl h))
  · exact .inr (.inr (.inr (.inl h)))
  · exact .inr (.inr (.inr (.inr h)))

theorem congr (h : Ground m D T K w used free) (hs : SameSetup m m')
    (hloc : m'.pmmStackLoc = m.pmmStackLoc)
    (hmem : ∀ f, Rests m D T K w used f → ∀ i, m'.mem f i = m.mem f i) :
    Ground m' D T K w used free :=
  h.of_needed hs hloc (fun f i hn => hmem f (.inl (isTable_of_needed hn)) i)
    fun q hq => hmem _ (.inr ⟨q, hq, rfl⟩)

theorem walks (h : Ground m D T K w used free) : Walks m D := by
  intro va hlo hhi f he
  have hc := h.current
  obtain ⟨-, he⟩ := entry_of_pte he
  have hp : present (m.mem D (va.toNat / 4194304)) = true := by
    rcases Nat.lt_or_ge va.toNat 0xFF800000 with hlt | hge
    · rw [show va.toNat / 4194304 = 1021 by omega]
      exact hc.slots.1
    · rw [show va.toNat / 4194304 = 1022 by omega]
      exact h.kernelTable
  rw [wordOf_eq]
  exact translate_eq va hc.pagingEnabled (by rw [hc.cr3]; exact ⟨hp, rfl⟩) he

/-- **`pmm_alloc_page`** returns the page on top of the stack. -/
theorem pop (h : Ground m D T K w used (free ++ [p])) : pmmAllocPage m = some (p, m.popped) ∧
      Ground m.popped D T K w used free := by
  obtain ⟨hpop, hpile⟩ := h.pile.pop h.walks
  exact ⟨hpop, h.of_pile sameSetup_mem (fun _ _ _ => rfl) hpile⟩

section

variable (h : Ground m D T K w used free)

include h

theorem load_kernel {i : UInt32} (hi : i.toNat < 1024) :
    m.load (m.kernelDirectory.directory + 4 * i) = some (m.mem K i.toNat) := by
  rw [h.kernelDirectory, Machine.load, translate_word h.current.pagingEnabled h.current.cr3
    ⟨h.kernelTable, rfl⟩ h.kernelMount (show _ = 0xFFBFF000 from rfl) (by omega)
    (by omega) (by omega) (by omega), Nat.mod_eq_of_lt hi, Option.map_some]

/-- **`pmm_free_page`**, while there is room: the page is put on top of the stack. -/
theorem push (hlow : m.pmmLocation ≤ p)
    (hal : p &&& pageAddrMask = p) (hroom : free.length < 1024 * used.length) :
    ∃ q ∈ used, pmmFreePage m p =
        some { m.poke (frameOf q) (free.length % 1024) p with pmmStackLoc := m.pmmStackLoc + 4 } ∧
      Ground { m.poke (frameOf q) (free.length % 1024) p with pmmStackLoc := m.pmmStackLoc + 4 }
        D T K w used (free ++ [p]) := by
  have hneeded : ∀ q ∈ used, ∀ i v f j, IsNeeded m D T K w f j →
      (m.poke (frameOf q) i v).mem f j = m.mem f j := by
    intro q hq i v f j hn
    rw [Machine.poke_mem, if_neg]
    rintro ⟨rfl, -⟩
    exact h.apart q hq (isTable_of_needed hn)
  have hge : ¬p &&& pageAddrMask < m.pmmLocation := by
    rw [hal]
    exact Nat.not_lt.mpr (UInt32.le_iff_toNat_le.mp hlow)
  obtain ⟨q, hq, hfree, hpile⟩ := h.pile.push h.walks hge hroom h.inj
    fun q hq i v n hlo hhi => h.pte_eq (hneeded q hq i v) hlo hhi
  rw [hal] at hfree hpile
  exact ⟨q, hq, hfree,
    h.of_pile sameSetup_mem (hneeded q hq _ p) hpile⟩

theorem of_mountWords (hs : SameSetup m m') (hloc : m'.pmmStackLoc = m.pmmStackLoc)
    (hmem : ∀ f i, ¬MountWord D T f i → m'.mem f i = m.mem f i) : Ground m' D T K w used free := by
  have hTD := h.current.slots_ne
  obtain ⟨K', -, hK', hTK', -⟩ := h.current.kernel
  obtain rfl : K' = K := hK'.2.symm.trans h.kernelWindow.2
  have hw := h.current.window
  refine h.of_needed hs hloc ?_ ?_
  · intro f i hn
    apply hmem
    rintro (⟨rfl, hlo, hhi⟩ | ⟨rfl, hlo, hhi⟩)
    · rcases hn with ⟨hf, -⟩ | ⟨-, hi⟩ | ⟨hf, -⟩ | ⟨-, hi⟩ | hf
      · exact hTD hf
      · omega
      · exact hTK' hf
      · omega
      · exact h.table_ne.2 hf.symm
    · rcases hn with ⟨-, hi⟩ | ⟨-, hi⟩ | ⟨-, hi⟩ | ⟨-, hi⟩ | hf
      · omega
      · omega
      · omega
      · omega
      · exact h.table_ne.1 hf.symm
  · intro q hq i
    apply hmem
    rintro (⟨hf, -, -⟩ | ⟨hf, -, -⟩)
    · exact h.apart q hq (.inr (.inl hf))
    · exact h.apart q hq (.inl hf)

theorem mounted {s t : ℕ} (hs : s < 4) (ht : t < 8)
    (dir : PageDirectory) : Ground (mounted m D T s t dir) D T K w used free := by
  exact h.of_mountWords sameSetup_mem rfl
    fun f i hw => mounted_of_not_mountWord hs ht dir hw

theorem unmounted {s t : ℕ} (hs : s < 4) (ht : t < 8) :
    Ground (unmounted m D T s t) D T K w used free := by
  refine h.of_mountWords sameSetup_mem rfl ?_
  intro f i hw
  rw [unmounted_mem, if_neg]
  rintro (⟨rfl, rfl⟩ | ⟨rfl, rfl⟩)
  · exact hw (.inl ⟨rfl, by omega, by omega⟩)
  · exact hw (.inr ⟨rfl, by omega, by omega⟩)

end

end Ground

end AthenX.Paging
