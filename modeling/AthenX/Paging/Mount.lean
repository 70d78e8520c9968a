import AthenX.Lib.Slots
import AthenX.Paging.Walker

/-!
# Mounting directories

To work on another directory, `vmm.c` maps it at one of four slots, and enters it in the current
directory at one of eight places, as the page table of a window on its own page tables.

The current directory is the kernel's or a clone of it, which is mounted in itself at
`USER_TABLES_VIRTUAL`. `Current m D T w` says that the directory in frame `D` is its own page table
`w`, and `T` that of the slots. Unlike `SelfMapped` it allows a directory to be entered more than
once.
-/

namespace AthenX.Paging

open Option

/-! ### The code -/

/-- `MOUNT_TABS_END`. -/
def mountTabsEnd : UInt32 := 0xFF000000
/-- `MOUNT_DIR_START`. -/
def mountDirStart : UInt32 := 0xFF7FB000
/-- `MOUNT_DIR_END`. -/
def mountDirEnd : UInt32 := 0xFF7FF000

/-- `page_directory_mount_t`. -/
structure Mount where
  directory : UInt32
  pages : UInt32
  deriving DecidableEq, Repr

/-- The two loops of `find_mount_point`: the first of `n` addresses that is not in use, or null. -/
def firstFree (step : UInt32) (used : UInt32 → Option Bool) : ℕ → UInt32 → Option UInt32
  | 0,     _ => some 0
  | n + 1, va => do
      if ← used va then firstFree step used n (va + step) else some va

/-- `find_mount_point`. -/
def findMountPoint (m : Machine) : Option Mount := do
  let directory ← firstFree pageSize (fun va => (getMapping m va).map Option.isSome)
    ((mountDirEnd - mountDirStart) / pageSize).toNat mountDirStart
  let pages ← firstFree (1024 * pageSize)
    (fun va => (m.load (m.currentDirectory.directory + 4 * pgdirIdxFromAddr va)).map (· != 0))
    ((mountTabsEnd - mountTabsStart) / (1024 * pageSize)).toNat mountTabsStart
  some ⟨directory, pages⟩

/-- `mount_directory`. Its checks only print, but they do read. -/
def mountDirectory (m : Machine) (dir : PageDirectory) : Option (Mount × Machine) := do
  let mount ← findMountPoint m
  let dirIdx := pgdirIdxFromAddr mount.pages
  let occupied ← getMapping m mount.directory
  let _ ← if occupied.isSome then some 0
    else m.load (m.currentDirectory.directory + 4 * dirIdx)
  let m ← map m mount.directory dir.physical (pagePresent ||| pageWrite)
  let m ← m.store (m.currentDirectory.directory + 4 * dirIdx)
    (dir.physical ||| pagePresent ||| pageWrite)
  some (mount, m)

/-- `umount_directory`. -/
def umountDirectory (m : Machine) (mount : Mount) : Option Machine := do
  let m ← unmap m mount.directory
  m.store (m.currentDirectory.directory + 4 * pgdirIdxFromAddr mount.pages) 0

/-! ### The current directory -/

/-- Directory `D` is current, its own page table `w` and its own last page before; `T` has the
slots. -/
structure Current (m : Machine) (D T w : ℕ) : Prop where
  pagingEnabled : m.pagingEnabled = true
  canMap : m.canMap = true
  cr3 : frameOf m.cr3 = D
  window : w = 1023 ∨ w = 959
  directory : m.currentDirectory.directory.toNat = w * 4194304 - 4096
  pages : m.currentDirectory.pages.toNat = w * 4194304
  self : Entry (m.mem D w) D
  mount : ∃ M, Entry (m.mem D (w - 1)) M ∧ Entry (m.mem M 1023) D
  slots : Entry (m.mem D 1021) T
  slots_ne : T ≠ D
  kernelPages : m.kernelDirectory.pages = kernelTablesVirtual
  kernel : ∃ K T', Entry (m.mem D 1023) K ∧ T ≠ K ∧ Entry (m.mem K 1021) T'

/-- The words that hold the mount points: the slots, and places in the directory. -/
def MountWord (D T f i : ℕ) : Prop :=
  f = T ∧ 1019 ≤ i ∧ i < 1023 ∨ f = D ∧ 1012 ≤ i ∧ i < 1020

variable {m m₀ : Machine} {D F T f i s t w : ℕ} {n : UInt32} {x : Mount × PageDirectory}
  {live : List (Mount × PageDirectory)}

theorem SelfMapped.current (h : SelfMapped m D) (hne : m.mem D 1021 ≠ 0) :
    Current m D (frameOf (m.mem D 1021)) 1023 where
  pagingEnabled := h.pagingEnabled
  canMap := h.canMap
  cr3 := h.cr3
  window := .inl rfl
  directory := by rw [h.directory]; rfl
  pages := by rw [h.pages]; rfl
  self := h.self
  mount := ⟨_, ⟨h.present 1022 (by decide) h.mount_ne, rfl⟩, h.mount⟩
  slots := ⟨h.present 1021 (by decide) hne, rfl⟩
  slots_ne := h.ne_dir 1021 (by decide) hne
  kernelPages := h.kernelPages
  kernel := ⟨D, _, h.self, h.ne_dir 1021 (by decide) hne, h.present 1021 (by decide) hne, rfl⟩

theorem translate_eq (va : UInt32) {G : ℕ} (hp : m.pagingEnabled = true)
    (hF : Entry (m.mem (frameOf m.cr3) (va.toNat / 4194304)) F)
    (hG : Entry (m.mem F (va.toNat / 4096 % 1024)) G) :
    m.translate va = some (G, va.toNat % 4096 / 4) := by
  simp only [Machine.translate, hp, if_true, toNat_pgdirIdx, toNat_pgtabIdx, wordOf_eq, hF.1,
    hF.2, hG.1, hG.2]

namespace Current

variable {m' : Machine} {T w : ℕ} {va : UInt32} {s t : ℕ}

section

variable (h : Current m D T w)

include h

theorem congr (hr : SameRegs m m')
    (hmem : ∀ f i, ¬MountWord D T f i → m'.mem f i = m.mem f i) : Current m' D T w := by
  have hne := h.slots_ne
  have hD : ∀ i, i < 1012 ∨ 1020 ≤ i → m'.mem D i = m.mem D i := by
    intro i hi
    refine hmem D i ?_
    rintro (⟨hT, -⟩ | ⟨-, h1, h2⟩)
    · exact hne hT.symm
    · omega
  have hlast : ∀ f, m'.mem f 1023 = m.mem f 1023 := by
    intro f
    refine hmem f 1023 ?_
    rintro (⟨-, -, h2⟩ | ⟨-, -, h2⟩) <;> omega
  have hw := h.window
  obtain ⟨M, hM, hM'⟩ := h.mount
  obtain ⟨K, T', hK, hTK, hK'⟩ := h.kernel
  constructor
  case self => rw [hD w (by omega)]; exact h.self
  case mount =>
    refine ⟨M, ?_, ?_⟩
    · rw [hD (w - 1) (by omega)]
      exact hM
    · rw [hlast]
      exact hM'
  case slots => rw [hD 1021 (by omega)]; exact h.slots
  case kernel =>
    refine ⟨K, T', ?_, hTK, ?_⟩
    · rw [hlast]
      exact hK
    · rw [hmem K 1021]
      · exact hK'
      · rintro (⟨hc, -⟩ | ⟨-, -, h2⟩)
        · exact hTK hc.symm
        · omega
  case pagingEnabled => exact hr.pagingEnabled.trans h.pagingEnabled
  case canMap => exact hr.canMap.trans h.canMap
  case cr3 => rw [hr.cr3, h.cr3]
  case window => exact hw
  case directory => rw [hr.currentDirectory, h.directory]
  case pages => rw [hr.currentDirectory, h.pages]
  case slots_ne => exact hne
  case kernelPages => rw [hr.kernelDirectory, h.kernelPages]

theorem poke (hw : MountWord D T f i) (v : UInt32) : Current (m.poke f i v) D T w := by
  refine h.congr (sameRegs_poke m f i v) fun f' i' hne => ?_
  rw [Machine.poke_mem, if_neg]
  rintro ⟨rfl, rfl⟩
  exact hne hw

/-- `directory[i]` is word `i` of the directory. -/
theorem translate_directory {i : UInt32} (hi : i.toNat < 1024) :
    m.translate (m.currentDirectory.directory + 4 * i) = some (D, i.toNat) := by
  obtain ⟨M, hM, hM'⟩ := h.mount
  have hw := h.window
  rw [translate_word h.pagingEnabled h.cr3 hM hM' h.directory (by omega) (by omega)
    (by omega) (by omega), Nat.mod_eq_of_lt hi]

/-- `pages[n]` is an entry of table `n / 1024`, if there is such a table. -/
theorem translate_pages (hn : n.toNat < 1048576) (hF : Entry (m.mem D (n.toNat / 1024)) F) :
    m.translate (m.currentDirectory.pages + 4 * n) = some (F, n.toNat % 1024) := by
  have hw := h.window
  exact translate_word h.pagingEnabled h.cr3 h.self hF h.pages (by omega) (by omega)
    (by omega) (by omega)

theorem load_directory (va : UInt32) :
    m.load (m.currentDirectory.directory + 4 * pgdirIdxFromAddr va) =
      some (m.mem D (va.toNat / 4194304)) := by
  have hlt := va.toNat_lt
  rw [Machine.load, h.translate_directory (by rw [toNat_pgdirIdx]; omega), toNat_pgdirIdx, map_some]

theorem store_directory (va v : UInt32) :
    m.store (m.currentDirectory.directory + 4 * pgdirIdxFromAddr va) v =
      some (m.poke D (va.toNat / 4194304) v) := by
  have hlt := va.toNat_lt
  rw [Machine.store, h.translate_directory (by rw [toNat_pgdirIdx]; omega), toNat_pgdirIdx,
    map_some]

/-! ### The slots -/

section

variable (hs : s < 4) (hva : va.toNat = 0xFF7FB000 + 4096 * s)

include hs hva

theorem translate_slot :
    m.translate (m.currentDirectory.pages + 4 * pgNumFromAddr va) = some (T, 1019 + s) := by
  have hn : (pgNumFromAddr va).toNat = 1046523 + s := by rw [toNat_pgNum]; omega
  rw [h.translate_pages (by rw [hn]; omega) (by
    rw [hn, show (1046523 + s) / 1024 = 1021 by omega]
    exact h.slots)]
  congr 2
  omega

theorem getMapping_slot : getMapping m va = some (reading (m.mem T (1019 + s)) va) := by
  have hdir : va.toNat / 4194304 = 1021 := by omega
  rw [getMapping, h.load_directory, hdir, bind_eq_bind, bind_some,
    if_neg (ne_zero_of_present h.slots.1), Machine.load, h.translate_slot hs hva, map_some,
    bind_some, reading]
  by_cases he : m.mem T (1019 + s) = 0
  · rw [if_neg (not_not.mpr he), if_pos he]
  · rw [if_pos he, if_neg he]

theorem store_slot (v : UInt32) :
    m.store (m.currentDirectory.pages + 4 * pgNumFromAddr va) v = some (m.poke T (1019 + s) v) := by
  rw [Machine.store, h.translate_slot hs hva, map_some]

/-- **`map` at a slot** writes its entry. -/
theorem map_slot (pa flags : UInt32) :
    map m va pa flags = some (m.poke T (1019 + s) (pteOf pa flags)) := by
  have hdir : va.toNat / 4194304 = 1021 := by omega
  have hspace : kernelAddressSpace ≤ va := by
    rw [UInt32.le_iff_toNat_le]
    have : kernelAddressSpace.toNat = 0xF0000000 := rfl
    omega
  have h' : Current (m.poke T (1019 + s) (pteOf pa flags)) D T w :=
    h.poke (.inl ⟨rfl, by omega, by omega⟩) _
  -- the check at the end reads the entry in the kernel directory, too
  obtain ⟨K, T', hK, -, hK'⟩ := h'.kernel
  have hread : (m.poke T (1019 + s) (pteOf pa flags)).translate
      (kernelTablesVirtual + 4 * pgNumFromAddr va) = some (T', 1019 + s) := by
    have hn : (pgNumFromAddr va).toNat = 1046523 + s := by rw [toNat_pgNum]; omega
    rw [translate_word h'.pagingEnabled h'.cr3 hK hK' (show _ = 0xFFC00000 from rfl)
      (by omega) (by omega) (by omega) (by omega)]
    congr 2
    omega
  simp only [map, h.canMap, h.load_directory, hdir, bind_eq_bind,
    bind_some, if_neg (ne_zero_of_present h.slots.1)]
  rw [← pteOf, h.store_slot hs hva, bind_some, if_pos hspace, Machine.load,
    h'.translate_slot hs hva, Machine.load, h'.kernelPages,
    hread]
  rfl

end

end

end Current

/-! ### The two operations -/

/-- The address of a slot. -/
def slotAddr (s : ℕ) : UInt32 := mountDirStart + pageSize * UInt32.ofNat s

/-- The address of a window. -/
def windowAddr (t : ℕ) : UInt32 := mountTabsStart + 1024 * pageSize * UInt32.ofNat t

theorem slotAddr_succ (s : ℕ) : slotAddr (s + 1) = slotAddr s + pageSize := by
  simp [slotAddr, UInt32.mul_add, UInt32.add_assoc]

theorem windowAddr_succ (t : ℕ) : windowAddr (t + 1) = windowAddr t + 1024 * pageSize := by
  simp [windowAddr, UInt32.mul_add, UInt32.add_assoc]

theorem toNat_slotAddr (hs : s < 4) : (slotAddr s).toNat = 0xFF7FB000 + 4096 * s := by
  have hstart : mountDirStart.toNat = 0xFF7FB000 := rfl
  have hsize : pageSize.toNat = 4096 := rfl
  rw [slotAddr, UInt32.toNat_add, UInt32.toNat_mul, UInt32.toNat_ofNat', hsize]
  omega

theorem toNat_windowAddr (ht : t < 8) : (windowAddr t).toNat = 0xFD000000 + 4194304 * t := by
  have hstart : mountTabsStart.toNat = 0xFD000000 := rfl
  have hsize : (1024 * pageSize).toNat = 4194304 := rfl
  rw [windowAddr, UInt32.toNat_add, UInt32.toNat_mul, UInt32.toNat_ofNat', hsize]
  omega

theorem firstFree_eq {step : UInt32} (used : UInt32 → Option Bool) (addr : ℕ → UInt32)
    {b : ℕ → Bool} (hstep : ∀ k, addr (k + 1) = addr k + step) :
    ∀ n k, (∀ j < n, used (addr (k + j)) = some (b (k + j))) →
      (∃ j < n, b (k + j) = false) →
      ∃ j < n, b (k + j) = false ∧ firstFree step used n (addr k) = some (addr (k + j)) := by
  intro n
  induction n with
  | zero =>
    omega
  | succ n ih =>
    intro k hused hfree
    have hk := hused 0 (by omega)
    rw [Nat.add_zero] at hk
    cases hb : b k with
    | false =>
      refine ⟨0, by omega, hb, ?_⟩
      simp [firstFree, hk, hb]
    | true =>
      obtain ⟨j, hj, hbj⟩ := hfree
      have hj0 : j ≠ 0 := by
        rintro rfl
        rw [Nat.add_zero, hb] at hbj
        cases hbj
      obtain ⟨i, hi, hbi, heq⟩ := ih (k + 1) (fun j hj => by
        rw [Nat.add_assoc, Nat.add_comm 1 j]
        exact hused (j + 1) (by omega)) ⟨j - 1, by omega, by
        rw [show k + 1 + (j - 1) = k + j by omega]
        exact hbj⟩
      refine ⟨i + 1, by omega, ?_, ?_⟩
      · rw [show k + (i + 1) = k + 1 + i by omega]
        exact hbi
      · rw [show k + (i + 1) = k + 1 + i by omega, ← heq, hstep]
        simp [firstFree, hk, hb]

section

variable {T w : ℕ}

/-- The mount point with slot `s` and window `t`. -/
def mountAt (s t : ℕ) : Mount := ⟨slotAddr s, windowAddr t⟩

/-- The machine with directory `dir` at this mount point. -/
def mounted (m : Machine) (D T s t : ℕ) (dir : PageDirectory) : Machine :=
  (m.poke T (1019 + s) (pteOf dir.physical (pagePresent ||| pageWrite))).poke D (1012 + t)
    (dir.physical ||| pagePresent ||| pageWrite)

/-- The machine with nothing there. -/
def unmounted (m : Machine) (D T s t : ℕ) : Machine :=
  (m.poke T (1019 + s) 0).poke D (1012 + t) 0

section

variable (h : Current m D T w) (hs : ∃ s < 4, m.mem T (1019 + s) = 0)
  (ht : ∃ t < 8, m.mem D (1012 + t) = 0)

include h hs ht

theorem findMountPoint_eq : ∃ s < 4, ∃ t < 8, m.mem T (1019 + s) = 0 ∧ m.mem D (1012 + t) = 0 ∧
      findMountPoint m = some (mountAt s t) := by
  obtain ⟨s0, hs0, hzero⟩ := hs
  obtain ⟨t0, ht0, hzero'⟩ := ht
  obtain ⟨s, hs, hfree, hslot⟩ := firstFree_eq
    (fun va => (getMapping m va).map Option.isSome) slotAddr
    (b := fun s => m.mem T (1019 + s) != 0) slotAddr_succ 4 0
    (fun s hs => by
      rw [Nat.zero_add, h.getMapping_slot hs (toNat_slotAddr hs), reading]
      by_cases he : m.mem T (1019 + s) = 0 <;> simp [he])
    ⟨s0, hs0, by simp [hzero]⟩
  obtain ⟨t, ht, hfree', hwindow⟩ := firstFree_eq
    (fun va => (m.load (m.currentDirectory.directory + 4 * pgdirIdxFromAddr va)).map (· != 0))
    windowAddr windowAddr_succ 8 0
    (fun t ht => by
      rw [Nat.zero_add, h.load_directory, toNat_windowAddr ht,
        show (0xFD000000 + 4194304 * t) / 4194304 = 1012 + t by omega, map_some])
    ⟨t0, ht0, by simp [hzero']⟩
  simp only [Nat.zero_add, bne_eq_false_iff_eq] at hfree hfree' hslot hwindow
  have hfirst : slotAddr 0 = mountDirStart := by decide
  have hfirst' : windowAddr 0 = mountTabsStart := by decide
  rw [hfirst] at hslot
  rw [hfirst'] at hwindow
  refine ⟨s, hs, t, ht, hfree, hfree', ?_⟩
  have hn : ((mountDirEnd - mountDirStart) / pageSize).toNat = 4 := by decide
  have hn' : ((mountTabsEnd - mountTabsStart) / (1024 * pageSize)).toNat = 8 := by decide
  rw [findMountPoint, hn, hn', hslot, hwindow]
  rfl

/-- **`mount_directory`** takes a free slot and window, and enters the directory in both. -/
theorem mountDirectory_eq (dir : PageDirectory) :
    ∃ s < 4, ∃ t < 8, m.mem T (1019 + s) = 0 ∧ m.mem D (1012 + t) = 0 ∧
      mountDirectory m dir = some (mountAt s t, mounted m D T s t dir) := by
  obtain ⟨s, hs, t, ht, hfree, hfree', hpoint⟩ := findMountPoint_eq h hs ht
  refine ⟨s, hs, t, ht, hfree, hfree', ?_⟩
  have hslot := toNat_slotAddr hs
  have hwindow : (windowAddr t).toNat / 4194304 = 1012 + t := by
    rw [toNat_windowAddr ht]
    omega
  have h' : Current (m.poke T (1019 + s) (pteOf dir.physical (pagePresent ||| pageWrite))) D T w :=
    h.poke (.inl ⟨rfl, by omega, by omega⟩) _
  have hread : getMapping m (slotAddr s) = some none := by
    rw [h.getMapping_slot hs hslot, reading, if_pos hfree]
  simp only [mountDirectory, hpoint, bind_eq_bind, bind_some, mountAt, hread,
    h.load_directory, h.map_slot hs hslot]
  rw [h'.store_directory, hwindow]
  rfl

end

section

variable (h : Current m D T w) (hs : s < 4) (ht : t < 8)

include h hs ht

/-- **`umount_directory`** clears both. -/
theorem umountDirectory_eq : umountDirectory m (mountAt s t) = some (unmounted m D T s t) := by
  have hwindow : (windowAddr t).toNat / 4194304 = 1012 + t := by
    rw [toNat_windowAddr ht]
    omega
  have h' : Current (m.poke T (1019 + s) 0) D T w :=
    h.poke (.inl ⟨rfl, by omega, by omega⟩) _
  simp only [umountDirectory, mountAt, unmap, h.store_slot hs (toNat_slotAddr hs) 0,
    bind_eq_bind, bind_some]
  rw [h'.store_directory, hwindow]
  rfl

theorem Current.mounted (dir : PageDirectory) : Current (mounted m D T s t dir) D T w :=
  (h.poke (.inl ⟨rfl, by omega, by omega⟩) _).poke (.inr ⟨rfl, by omega, by omega⟩) _

theorem Current.unmounted : Current (unmounted m D T s t) D T w :=
  (h.poke (.inl ⟨rfl, by omega, by omega⟩) _).poke (.inr ⟨rfl, by omega, by omega⟩) _

end

theorem mounted_mem (hne : T ≠ D) (s t : ℕ) (dir : PageDirectory) (f i : ℕ) :
    (mounted m D T s t dir).mem f i =
      if f = T ∧ i = 1019 + s then pteOf dir.physical (pagePresent ||| pageWrite)
      else if f = D ∧ i = 1012 + t then dir.physical ||| pagePresent ||| pageWrite
      else m.mem f i := by
  rw [mounted, Machine.poke_mem, Machine.poke_mem]
  by_cases hf : f = T
  · have hfD : f ≠ D := fun hc => hne (hf.symm.trans hc)
    simp [hfD]
  · simp [hf]

theorem mounted_slot (hne : T ≠ D) (s t : ℕ) (dir : PageDirectory) (j : ℕ) :
    (mounted m D T s t dir).mem T (1019 + j) =
      if j = s then pteOf dir.physical (pagePresent ||| pageWrite) else m.mem T (1019 + j) := by
  rw [mounted_mem hne]
  by_cases hj : j = s
  · rw [if_pos hj, if_pos ⟨rfl, by omega⟩]
  · rw [if_neg hj, if_neg (by omega), if_neg fun hc => hne hc.1]

theorem mounted_window (hne : T ≠ D) (s t : ℕ) (dir : PageDirectory) (j : ℕ) :
    (mounted m D T s t dir).mem D (1012 + j) =
      if j = t then dir.physical ||| pagePresent ||| pageWrite else m.mem D (1012 + j) := by
  rw [mounted_mem hne, if_neg fun hc => hne hc.1.symm]
  exact if_congr (by omega) rfl rfl

theorem mounted_other (dir : PageDirectory) (hslot : ¬(f = T ∧ i = 1019 + s))
    (hwindow : ¬(f = D ∧ i = 1012 + t)) : (mounted m D T s t dir).mem f i = m.mem f i := by
  rw [mounted, Machine.poke_mem, Machine.poke_mem, if_neg hwindow, if_neg hslot]

theorem mounted_of_not_mountWord (hs : s < 4) (ht : t < 8) (dir : PageDirectory)
    (hw : ¬MountWord D T f i) : (mounted m D T s t dir).mem f i = m.mem f i := by
  refine mounted_other dir ?_ ?_
  · rintro ⟨rfl, rfl⟩
    exact hw (.inl ⟨rfl, by omega, by omega⟩)
  · rintro ⟨rfl, rfl⟩
    exact hw (.inr ⟨rfl, by omega, by omega⟩)

theorem unmounted_mem (s t f i : ℕ) :
    (unmounted m D T s t).mem f i =
      if f = T ∧ i = 1019 + s ∨ f = D ∧ i = 1012 + t then 0 else m.mem f i := by
  rw [unmounted, Machine.poke_mem, Machine.poke_mem]
  by_cases h1 : f = D ∧ i = 1012 + t
  · rw [if_pos h1, if_pos (.inr h1)]
  · rw [if_neg h1]
    simp [h1]

end

/-! ### Runs -/

/-- Runs of `mount_directory` and `umount_directory`, with at most four live mounts, in any order.
-/
inductive MountRun (m₀ : Machine) : Machine → List (Mount × PageDirectory) → Prop
  | start : MountRun m₀ m₀ []
  | mount {m m' : Machine} {live : List (Mount × PageDirectory)} {mt : Mount}
      {dir : PageDirectory} : MountRun m₀ m live → live.length < 4 →
      mountDirectory m dir = some (mt, m') → MountRun m₀ m' ((mt, dir) :: live)
  | umount {m m' : Machine} {l₁ l₂ : List (Mount × PageDirectory)} {mt : Mount}
      {dir : PageDirectory} : MountRun m₀ m (l₁ ++ (mt, dir) :: l₂) →
      umountDirectory m mt = some m' → MountRun m₀ m' (l₁ ++ l₂)

theorem slotAddr_inj : ∀ s < 4, ∀ s' < 4, slotAddr s = slotAddr s' → s = s' := by
  intro s hs s' hs' h
  have heq := congrArg UInt32.toNat h
  rw [toNat_slotAddr hs, toNat_slotAddr hs'] at heq
  omega

theorem windowAddr_inj : ∀ t < 8, ∀ t' < 8, windowAddr t = windowAddr t' → t = t' := by
  intro t ht t' ht' h
  have heq := congrArg UInt32.toNat h
  rw [toNat_windowAddr ht, toNat_windowAddr ht'] at heq
  omega

/-- What is entered in the slot of a mount. -/
def slotEntry (x : Mount × PageDirectory) : UInt32 :=
  pteOf x.2.physical (pagePresent ||| pageWrite)

/-- What is entered in the directory for its window. -/
def windowEntry (x : Mount × PageDirectory) : UInt32 :=
  x.2.physical ||| pagePresent ||| pageWrite

theorem entry_slotEntry (x : Mount × PageDirectory) :
    Entry (slotEntry x) (frameOf x.2.physical) := entry_pteOf x.2.physical (by decide)

theorem entry_windowEntry (x : Mount × PageDirectory) :
    Entry (windowEntry x) (frameOf x.2.physical) := entry_table x.2.physical

/-- The live mounts, and nothing else, are entered. -/
structure Mounted (m₀ m : Machine) (D T : ℕ) (live : List (Mount × PageDirectory)) : Prop where
  regs : SameRegs m₀ m
  mem : ∀ f i, ¬MountWord D T f i → m.mem f i = m₀.mem f i
  slots : Slots 4 slotAddr 0 (fun x => x.1.directory) slotEntry (fun s => m.mem T (1019 + s)) live
  windows : Slots 8 windowAddr 0 (fun x => x.1.pages) windowEntry (fun t => m.mem D (1012 + t)) live

namespace Mounted

variable {m₀ : Machine} {T w : ℕ} {live : List (Mount × PageDirectory)}

section

variable (h : Mounted m₀ m D T live)

include h

theorem current (h0 : Current m₀ D T w) : Current m D T w :=
  h0.congr h.regs h.mem

theorem mount (hne : T ≠ D) (hs : s < 4) (ht : t < 8) (hfree : m.mem T (1019 + s) = 0)
    (hfree' : m.mem D (1012 + t) = 0) (dir : PageDirectory) :
    Mounted m₀ (mounted m D T s t dir) D T ((mountAt s t, dir) :: live) := by
  refine ⟨?_, fun f i hw => ?_, ?_, ?_⟩
  · exact ⟨h.regs.pagingEnabled, h.regs.canMap, h.regs.cr3, h.regs.currentDirectory,
      h.regs.kernelDirectory⟩
  · rw [mounted_of_not_mountWord hs ht dir hw, h.mem f i hw]
  · refine h.slots.put slotAddr_inj (fun x => ne_zero_of_present (entry_slotEntry x).1) hs hfree
      rfl ?_ fun s' _ hs' => ?_
    · rw [mounted_slot hne, if_pos rfl, slotEntry]
    · rw [mounted_slot hne, if_neg hs']
  · refine h.windows.put windowAddr_inj (fun x => ne_zero_of_present (entry_windowEntry x).1) ht
      hfree' rfl ?_ fun t' _ ht' => ?_
    · rw [mounted_window hne, if_pos rfl, windowEntry]
    · rw [mounted_window hne, if_neg ht']

theorem mountDirectory_eq (h0 : Current m₀ D T w) (hlt : live.length < 4) (dir : PageDirectory) :
    ∃ s < 4, ∃ t < 8, m.mem T (1019 + s) = 0 ∧ m.mem D (1012 + t) = 0 ∧
      mountDirectory m dir = some (mountAt s t, mounted m D T s t dir) :=
  Paging.mountDirectory_eq (h.current h0) (h.slots.exists_blank slotAddr_inj hlt)
    (h.windows.exists_blank windowAddr_inj (by omega)) dir

theorem placed (hx : x ∈ live) :
    ∃ s < 4, ∃ t < 8, x.1 = mountAt s t ∧ m.mem T (1019 + s) = slotEntry x ∧
      m.mem D (1012 + t) = windowEntry x := by
  obtain ⟨s, hs, hdir, hslot⟩ := h.slots.placed x hx
  obtain ⟨t, ht, hpages, hwindow⟩ := h.windows.placed x hx
  exact ⟨s, hs, t, ht, congrArg₂ Mount.mk hdir hpages, hslot, hwindow⟩

end

theorem umount {mt : Mount} {dir : PageDirectory} (h : Mounted m₀ m D T ((mt, dir) :: live))
    (hne : T ≠ D) :
    ∃ s < 4, ∃ t < 8, mt = mountAt s t ∧ Mounted m₀ (unmounted m D T s t) D T live := by
  obtain ⟨s, hs, t, ht, hmt, -, -⟩ := h.placed List.mem_cons_self
  have hmt' : mt = mountAt s t := hmt
  have hmem := unmounted_mem (m := m) (D := D) (T := T) s t
  refine ⟨s, hs, t, ht, hmt', ?_, fun f i hw => ?_, ?_, ?_⟩
  · exact ⟨h.regs.pagingEnabled, h.regs.canMap, h.regs.cr3, h.regs.currentDirectory,
      h.regs.kernelDirectory⟩
  · rw [hmem, if_neg, h.mem f i hw]
    rintro (⟨rfl, rfl⟩ | ⟨rfl, rfl⟩)
    · exact hw (.inl ⟨rfl, by omega, by omega⟩)
    · exact hw (.inr ⟨rfl, by omega, by omega⟩)
  · refine h.slots.clear slotAddr_inj hs (congrArg Mount.directory hmt') ?_ fun s' _ hs' => ?_
    · rw [hmem, if_pos (.inl ⟨rfl, rfl⟩)]
    · rw [hmem, if_neg]
      rintro (⟨-, hc⟩ | ⟨hc, -⟩)
      · omega
      · exact hne hc
  · refine h.windows.clear windowAddr_inj ht (congrArg Mount.pages hmt') ?_ fun t' _ ht' => ?_
    · rw [hmem, if_pos (.inr ⟨rfl, rfl⟩)]
    · rw [hmem, if_neg]
      rintro (⟨hc, -⟩ | ⟨-, hc⟩)
      · exact hne hc.symm
      · omega

theorem mem_eq (h : Mounted m₀ m D T []) (hslot : ∀ s < 4, m₀.mem T (1019 + s) = 0)
    (hwindow : ∀ t < 8, m₀.mem D (1012 + t) = 0) : m.mem = m₀.mem := by
  funext f i
  by_cases hw : MountWord D T f i
  · rcases hw with ⟨rfl, hi, hi'⟩ | ⟨rfl, hi, hi'⟩
    · have hs : i - 1019 < 4 := by omega
      have hz := h.slots.eq_blank hs
      have hz0 := hslot _ hs
      rw [show 1019 + (i - 1019) = i by omega] at hz hz0
      exact hz.trans hz0.symm
    · have ht : i - 1012 < 8 := by omega
      have hz := h.windows.eq_blank ht
      have hz0 := hwindow _ ht
      rw [show 1012 + (i - 1012) = i by omega] at hz hz0
      exact hz.trans hz0.symm
  · exact h.mem f i hw

end Mounted

theorem mounted_of_run (h0 : Current m₀ D T w) (hslot : ∀ s < 4, m₀.mem T (1019 + s) = 0)
    (hwindow : ∀ t < 8, m₀.mem D (1012 + t) = 0) (h : MountRun m₀ m live) :
    Mounted m₀ m D T live := by
  induction h with
  | start =>
    exact ⟨⟨rfl, rfl, rfl, rfl, rfl⟩, fun _ _ _ => rfl, .nil hslot, .nil hwindow⟩
  | @mount m m' live mt dir _ hlt hm ih =>
    obtain ⟨s, hs, t, ht, hfree, hfree', heq⟩ := ih.mountDirectory_eq h0 hlt dir
    cases hm.symm.trans heq
    exact ih.mount h0.slots_ne hs ht hfree hfree' dir
  | @umount m m' l1 l2 mt dir _ hm ih =>
    have ih' : Mounted _ _ _ _ ((mt, dir) :: (l1 ++ l2)) :=
      ⟨ih.regs, ih.mem, ih.slots.perm List.perm_middle, ih.windows.perm List.perm_middle⟩
    obtain ⟨s, hs, t, ht, rfl, h'⟩ := ih'.umount h0.slots_ne
    rw [umountDirectory_eq (ih.current h0) hs ht] at hm
    cases hm
    exact h'

/-! ### What a mount shows -/

theorem Current.translate_slotAddr (h : Current m D T w) (hs : s < 4)
    (he : Entry (m.mem T (1019 + s)) f) {i : UInt32} (hi : i.toNat < 1024) :
    m.translate (slotAddr s + 4 * i) = some (f, i.toNat) := by
  rw [translate_word h.pagingEnabled h.cr3 h.slots he (toNat_slotAddr hs) (by omega)
    (by omega) (by omega) (by omega), Nat.mod_eq_of_lt hi]

theorem Current.translate_windowAddr (h : Current m D T w)
    (ht : t < 8) (he : Entry (m.mem D (1012 + t)) f) (hn : n.toNat < 1048576) :
    m.translate (windowAddr t + 4 * n) =
      if present (m.mem f (n.toNat / 1024)) then
        some (frameOf (m.mem f (n.toNat / 1024)), n.toNat % 1024)
      else none := by
  have hfour : (4 : UInt32).toNat = 4 := rfl
  have hva : (windowAddr t + 4 * n).toNat = 0xFD000000 + 4194304 * t + 4 * n.toNat := by
    rw [UInt32.toNat_add, UInt32.toNat_mul, toNat_windowAddr ht, hfour]
    omega
  have hpde : (windowAddr t + 4 * n).toNat / 4194304 = 1012 + t := by
    omega
  have hslot : (windowAddr t + 4 * n).toNat / 4096 % 1024 = n.toNat / 1024 := by
    omega
  have hword : (windowAddr t + 4 * n).toNat % 4096 / 4 = n.toNat % 1024 := by
    omega
  simp only [Machine.translate, h.pagingEnabled, if_true, h.cr3, toNat_pgdirIdx, toNat_pgtabIdx,
    wordOf_eq, hpde, he.1, he.2, hslot, hword]

/-- At `mt` the directory `dir` is seen word by word, and in the window the entries of its tables.
-/
structure Shows (mem : ℕ → ℕ → UInt32) (translate : UInt32 → Option (ℕ × ℕ)) (mt : Mount)
    (dir : PageDirectory) : Prop where
  directory : ∀ i < 1024,
    translate (mt.directory + 4 * UInt32.ofNat i) = some (frameOf dir.physical, i)
  pages : ∀ n < 1048576, translate (mt.pages + 4 * UInt32.ofNat n) =
    if present (mem (frameOf dir.physical) (n / 1024)) then
      some (frameOf (mem (frameOf dir.physical) (n / 1024)), n % 1024)
    else none

theorem Mounted.shows (h : Mounted m₀ m D T live) (h0 : Current m₀ D T w) (hx : x ∈ live) :
    Shows m.mem m.translate x.1 x.2 := by
  have hcur := h.current h0
  obtain ⟨s, hs, t, ht, hmt, hslot, hwindow⟩ := h.placed hx
  have hslot' : Entry (m.mem T (1019 + s)) (frameOf x.2.physical) := hslot ▸ entry_slotEntry x
  have hwindow' : Entry (m.mem D (1012 + t)) (frameOf x.2.physical) :=
    hwindow ▸ entry_windowEntry x
  have hnat : ∀ n < 1048576, (UInt32.ofNat n).toNat = n := by
    intro n hn
    rw [UInt32.toNat_ofNat']
    omega
  rw [hmt]
  refine ⟨fun i hi => ?_, fun n hn => ?_⟩
  · have htr := hcur.translate_slotAddr hs hslot' (by rw [hnat i (by omega)]; exact hi)
    rw [hnat i (by omega)] at htr
    exact htr
  · have htr := hcur.translate_windowAddr ht hwindow' (by rw [hnat n hn]; exact hn)
    rw [hnat n hn] at htr
    exact htr

end AthenX.Paging
