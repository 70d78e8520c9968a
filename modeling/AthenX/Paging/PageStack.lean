import AthenX.Paging.Pile

/-!
# The stack of free pages

Once paging is active, free pages are kept on a stack at `PMM_STACK_START`, which grows by using up
a page that is freed: it is mapped at `pmm_stack_max` and holds the next 1024 free pages. In `Holds
m D used free`, `used` make up the stack and `free` are on it, both from the bottom. No page is
there twice, which also bounds the stack: it accounts for 1025 frames for each of its own when it
grows.
-/

namespace AthenX.Paging

open List Option UInt32

variable {p q va : UInt32} {m : Machine} {D : ℕ} {free l used : List UInt32}

/-! ### Memory behind the stack -/

/-- The page tables are set up below `pmm_location`, and those of the stack are in place. -/
structure Layout (m : Machine) (D : ℕ) : Prop where
  selfMapped : SelfMapped m D
  active : m.pmmPagingActive = true
  location : m.pmmLocation.toNat % 4096 = 0
  stackTable : m.mem D 1021 ≠ 0
  low_dir : D < m.pmmLocation.toNat / 4096
  low_table : ∀ i < 1023, m.mem D i ≠ 0 → frameOf (m.mem D i) < m.pmmLocation.toNat / 4096

/-- `init_vmm` leaves an empty stack, which has no page of its own. -/
structure PagingStarted (m : Machine) (D : ℕ) : Prop where
  layout : Layout m D
  loc : m.pmmStackLoc = pmmStackStart
  max : m.pmmStackMax = pmmStackStart

theorem pte_setMax (m : Machine) (max : UInt32) (D n : ℕ) :
    pte { m with pmmStackMax := max } D n = pte m D n :=
  pte_congr rfl D n

namespace Layout

/-- A word above `pmm_location` belongs to no table. -/
theorem poke_high (h : Layout m D) {f : ℕ} (hf : m.pmmLocation.toNat / 4096 ≤ f) (i : ℕ)
    (v : UInt32) : Layout (m.poke f i v) D ∧ ∀ n < 1048576, pte (m.poke f i v) D n = pte m D n := by
  have hother : ∀ f', f' < m.pmmLocation.toNat / 4096 → ∀ j,
      (m.poke f i v).mem f' j = m.mem f' j := by
    intro f' hf' j
    rw [Machine.poke_mem, if_neg]
    omega
  have hdir := hother D h.low_dir
  refine ⟨⟨?_, h.active, h.location, ?_, h.low_dir, ?_⟩, ?_⟩
  · exact h.selfMapped.congr (sameRegs_poke _ _ _ _) (fun j _ => hdir j)
      (hother _ (h.low_table 1022 (by decide) h.selfMapped.mount_ne) 1023)
  · rw [hdir]; exact h.stackTable
  · intro j hj hj0
    rw [hdir] at hj0 ⊢
    exact h.low_table j hj hj0
  · intro n hn
    refine pte_eq_of_words (hdir _) fun hz => ?_
    rcases Nat.lt_or_ge (n / 1024) 1023 with hlt | hge
    · exact hother _ (h.low_table _ hlt hz) _
    · rw [show n / 1024 = 1023 by omega, h.selfMapped.self.2]
      exact hdir _

theorem setEntry (h : Layout m D) (hva : va < kernelDirVirtual)
    (hne : m.pde D va ≠ 0) (v : UInt32) : Layout (setEntry m D va v) D where
  selfMapped := selfMapped_setEntry h.selfMapped hva hne v
  active := h.active
  location := h.location
  stackTable := by rw [setEntry_directory h.selfMapped hva hne]; exact h.stackTable
  low_dir := h.low_dir
  low_table := by
    intro i hi hi0
    rw [setEntry_directory h.selfMapped hva hne] at hi0 ⊢
    exact h.low_table i hi hi0

theorem setStack (h : Layout m D) (loc max : UInt32) :
    Layout { m with pmmStackLoc := loc, pmmStackMax := max } D where
  selfMapped := h.selfMapped.congr ⟨rfl, rfl, rfl, rfl, rfl⟩ (fun _ _ => rfl) rfl
  active := h.active
  location := h.location
  stackTable := h.stackTable
  low_dir := h.low_dir
  low_table := h.low_table

end Layout

/-! ### The stack -/

/-- The stack is made of the pages `used` and holds the pages `free`. -/
structure Holds (m : Machine) (D : ℕ) (used free : List UInt32) : Prop
    extends pile : Pile m D used free where
  layout : Layout m D
  nodup : (used ++ free).Nodup
  aligned : ∀ p ∈ used ++ free, p.toNat % 4096 = 0
  high : ∀ p ∈ used ++ free, m.pmmLocation.toNat ≤ p.toNat

theorem PagingStarted.holds (h : PagingStarted m D) : Holds m D [] [] where
  layout := h.layout
  active := h.layout.active
  max := by rw [h.max]; rfl
  loc := by rw [h.loc]; rfl
  room := Nat.zero_le _
  capacity := Nat.zero_le _
  nodup := nodup_nil
  aligned := by simp
  high := by simp
  backed := by simp
  content := by simp

theorem eq_of_frameOf_eq (hp : p.toNat % 4096 = 0) (hq : q.toNat % 4096 = 0)
    (h : frameOf p = frameOf q) : p = q := by
  rw [frameOf_eq, frameOf_eq] at h
  apply UInt32.toNat_inj.mp
  omega

theorem length_le_frames (hnd : l.Nodup) (hal : ∀ p ∈ l, p.toNat % 4096 = 0) :
    l.length ≤ 1048576 := by
  have hnd' : (l.map frameOf).Nodup :=
    hnd.map_on fun p hp q hq h => eq_of_frameOf_eq (hal p hp) (hal q hq) h
  have hsub : l.map frameOf ⊆ List.range 1048576 := by
    intro f hf
    obtain ⟨p, -, rfl⟩ := mem_map.mp hf
    have hlt := p.toNat_lt
    rw [mem_range, frameOf_eq]
    omega
  simpa using hnd'.length_le_of_subset hsub

namespace Holds

/-- **Taking a page**: the page on top of the stack is returned. -/
theorem pop (h : Holds m D used (free ++ [p])) :
    ∃ m', pmmAllocPage m = some (p, m') ∧ Holds m' D used free := by
  obtain ⟨hcall, hpile⟩ := h.pile.pop h.layout.selfMapped.walks
  have hsub : List.Sublist (used ++ free) (used ++ (free ++ [p])) :=
    (sublist_append_left free [p]).append_left used
  exact ⟨_, hcall, hpile, h.layout.setStack _ _, h.nodup.sublist hsub,
    fun r hr => h.aligned r (hsub.subset hr), fun r hr => h.high r (hsub.subset hr)⟩

section

variable (h : Holds m D used free)

include h

theorem page_high (hp : p ∈ used ++ free) : m.pmmLocation.toNat / 4096 ≤ frameOf p := by
  have := h.high p hp
  rw [frameOf_eq]
  omega

theorem index_eq {i j : ℕ} (hp : used[i]? = some p) (hq : used[j]? = some q)
    (hf : frameOf p = frameOf q) : i = j := by
  have hmem := fun {k : ℕ} {r : UInt32} (hr : used[k]? = some r) =>
    mem_append_left free (mem_of_getElem? hr)
  obtain rfl : p = q := eq_of_frameOf_eq (h.aligned p (hmem hp)) (h.aligned q (hmem hq)) hf
  have hnd : used.Nodup := (nodup_append.mp h.nodup).1
  obtain ⟨hi, rfl⟩ := List.getElem?_eq_some_iff.mp hp
  obtain ⟨hj, hij⟩ := List.getElem?_eq_some_iff.mp hq
  exact (hnd.getElem_inj_iff.mp hij).symm

theorem map_max (hcap : used.length < 1024) :
    m.pmmStackMax < kernelDirVirtual ∧ m.mem D (m.pmmStackMax.toNat / 4194304) ≠ 0 := by
  have hmax := h.max
  refine ⟨?_, ?_⟩
  swap
  · rcases Nat.lt_or_ge m.pmmStackMax.toNat 0xFF800000 with hlt | hge
    · rw [show m.pmmStackMax.toNat / 4194304 = 1021 by omega]
      exact h.layout.stackTable
    · rw [show m.pmmStackMax.toNat / 4194304 = 1022 by omega]
      exact h.layout.selfMapped.mount_ne
  rw [lt_iff_toNat_lt, kernelDirVirtual, show (0xFFBFF000 : UInt32).toNat = 0xFFBFF000 by decide]
  omega

variable (hp : p ∉ used ++ free) (hal : p.toNat % 4096 = 0) (hhi : m.pmmLocation.toNat ≤ p.toNat)

include hp hal hhi

theorem add_page (hl : l.Perm (p :: (used ++ free))) :
    l.Nodup ∧ (∀ r ∈ l, r.toNat % 4096 = 0) ∧ ∀ r ∈ l, m.pmmLocation.toNat ≤ r.toNat := by
  refine ⟨hl.nodup_iff.mpr (nodup_cons.mpr ⟨hp, h.nodup⟩), ?_, ?_⟩
  · intro r hr
    rcases mem_cons.mp (hl.mem_iff.mp hr) with rfl | hr
    · exact hal
    · exact h.aligned r hr
  · intro r hr
    rcases mem_cons.mp (hl.mem_iff.mp hr) with rfl | hr
    · exact hhi
    · exact h.high r hr

theorem capacity_of_full (hfull : free.length = 1024 * used.length) : used.length < 1024 := by
  obtain ⟨hnd, hals, -⟩ := h.add_page hp hal hhi (List.Perm.refl _)
  have hlen := length_le_frames hnd hals
  rw [length_cons, length_append] at hlen
  omega

/-- **Freeing a page while the stack is full**: the page becomes part of the stack. -/
theorem extend (hfull : free.length = 1024 * used.length) :
    ∃ m', (map m m.pmmStackMax p (pagePresent ||| pageWrite)).map
        (fun m => { m with pmmStackMax := m.pmmStackMax + pageSize }) = some m' ∧
      Holds m' D (used ++ [p]) free := by
  have hcap := h.capacity_of_full hp hal hhi hfull
  have hl := h.layout
  have hmax := h.max
  obtain ⟨hva, hne⟩ := h.map_max hcap
  have hpage : m.pmmStackMax.toNat / 4096 = 1046527 + used.length := by omega
  have hlay := hl.setEntry hva hne (pteOf p (pagePresent ||| pageWrite))
  have hpte := fun {n : ℕ} (hn : n < 1048576) =>
    pte_setEntry hl.selfMapped hva hne (pteOf p (pagePresent ||| pageWrite)) hn
  rw [hpage] at hpte
  obtain ⟨hnd, hals, hhis⟩ := h.add_page hp hal hhi (l := used ++ [p] ++ free)
    (by rw [append_assoc]; exact perm_middle)
  refine ⟨_, by rw [map_of_present hl.selfMapped hva hne, map_some], ?_, hlay.setStack _ _, hnd,
    hals, hhis⟩
  constructor
  case active => exact h.active
  case max =>
    show (m.pmmStackMax + pageSize).toNat = _
    rw [UInt32.toNat_add, List.length_append, List.length_singleton, toNat_pageSize]
    omega
  case loc => exact h.loc
  case room => rw [length_append]; omega
  case capacity => rw [length_append, length_singleton]; omega
  case backed =>
    intro k r hr
    have hk := (List.getElem?_eq_some_iff.mp hr).1
    rw [length_append, length_singleton] at hk
    rw [pte_setMax, hpte (by omega)]
    rcases Nat.lt_or_ge k used.length with hlt | hge
    · rw [if_neg (by omega)]
      rw [List.getElem?_append_left hlt] at hr
      exact h.backed k r hr
    · obtain rfl : k = used.length := by omega
      obtain rfl : p = r := by simpa using hr
      rw [if_pos rfl]
      exact entry_pteOf p (by decide)
  case content =>
    intro j r hr
    obtain ⟨q, hq, hval⟩ := h.content j r hr
    have hqm := mem_of_getElem? hq
    have hjk := (List.getElem?_eq_some_iff.mp hq).1
    refine ⟨q, by rw [List.getElem?_append_left hjk]; exact hq, ?_⟩
    -- the entry written is in a page table, and the stack's pages are not
    have hqf : frameOf q ≠ frameOf (m.mem D (m.pmmStackMax.toNat / 4194304)) := by
      have hlow := hl.low_table _ (by omega) hne
      have hqhi := h.page_high (mem_append_left free hqm)
      omega
    have hkeep : (Paging.setEntry m D m.pmmStackMax (pteOf p (pagePresent ||| pageWrite))).mem
        (frameOf q) (j % 1024) = m.mem (frameOf q) (j % 1024) := by
      rw [Paging.setEntry, Machine.poke_mem, if_neg fun hc => hqf hc.1]
    exact hkeep.trans hval

end

end Holds

/-! ### Runs -/

/-- What became of a page in a call. -/
inductive Use where
  /-- It was freed and put on the stack. -/
  | free
  /-- It was freed and used up to extend the stack. -/
  | stack
  /-- It was handed out. -/
  | out
  deriving DecidableEq, Repr

/-- What became of page `p` last; the latest call comes first. -/
def lastUse (hist : List (UInt32 × Use)) (p : UInt32) : Option Use :=
  (hist.find? fun e => e.1 == p).map Prod.snd

/-- A call of `pmm_free_page` that keeps its contract. -/
def MayFree (m : Machine) (hist : List (UInt32 × Use)) (p : UInt32) : Prop :=
  m.pmmLocation ≤ p ∧ lastUse hist (p &&& pageAddrMask) ≠ some .free ∧
    lastUse hist (p &&& pageAddrMask) ≠ some .stack

/-- The runs from `m₀`. A page is used up when its call finds the stack full. -/
inductive StackRun (m₀ : Machine) : List (UInt32 × Use) → Machine → Prop
  | start : StackRun m₀ [] m₀
  | free {hist : List (UInt32 × Use)} {m m' : Machine} {p : UInt32} : StackRun m₀ hist m →
      MayFree m hist p → pmmFreePage m p = some m' →
      StackRun m₀ ((p &&& pageAddrMask,
        if m.pmmStackMax ≤ m.pmmStackLoc then Use.stack else Use.free) :: hist) m'
  | alloc {hist : List (UInt32 × Use)} {m m' : Machine} {p : UInt32} : StackRun m₀ hist m →
      pmmStackStart < m.pmmStackLoc → pmmAllocPage m = some (p, m') →
      StackRun m₀ ((p, .out) :: hist) m'

variable {hist : List (UInt32 × Use)}

theorem lastUse_cons (p q : UInt32) (u : Use) (hist : List (UInt32 × Use)) :
    lastUse ((q, u) :: hist) p = if p = q then some u else lastUse hist p := by
  rw [lastUse, List.find?_cons, lastUse]
  by_cases h : p = q
  · simp [h]
  · rw [if_neg h, show (q == p) = false by simpa using fun hc => h hc.symm]

/-- The two lists are what the calls made of the pages. -/
structure Tracks (hist : List (UInt32 × Use)) (used free : List UInt32) : Prop where
  free_iff : ∀ p, lastUse hist p = some .free ↔ p ∈ free
  stack_iff : ∀ p, lastUse hist p = some .stack ↔ p ∈ used
  mem_used : ∀ p, (p, Use.stack) ∈ hist → p ∈ used

theorem Tracks.notMem (h : Tracks hist used free) (hf : lastUse hist p ≠ some .free)
    (hs : lastUse hist p ≠ some .stack) : p ∉ used ++ free := by
  intro hp
  rcases mem_append.mp hp with hp | hp
  · exact hs ((h.stack_iff p).mpr hp)
  · exact hf ((h.free_iff p).mpr hp)

theorem Holds.full_iff (h : Holds m D used free) :
    m.pmmStackMax ≤ m.pmmStackLoc ↔ free.length = 1024 * used.length := by
  rw [le_iff_toNat_le, h.max, h.loc]
  have := h.room
  omega

section

variable (h : Holds m D used free) (hnew : p &&& pageAddrMask ∉ used ++ free)
  (hlow : ¬p &&& pageAddrMask < m.pmmLocation)

include h hnew hlow

/-- **Freeing a page while there is room**: the page is pushed. -/
theorem Holds.push (hal : (p &&& pageAddrMask).toNat % 4096 = 0)
    (hhi : m.pmmLocation.toNat ≤ (p &&& pageAddrMask).toNat)
    (hroom : free.length < 1024 * used.length) :
    ∃ m', pmmFreePage m p = some m' ∧ m'.pmmLocation = m.pmmLocation ∧
      Holds m' D used (free ++ [p &&& pageAddrMask]) ∧
      m'.load m.pmmStackLoc = some (p &&& pageAddrMask) := by
  have hpoke := fun {q} (hq : q ∈ used) =>
    h.layout.poke_high (h.page_high (mem_append_left free hq))
  obtain ⟨q, hq, hcall, hpile⟩ := h.pile.push h.layout.selfMapped.walks hlow hroom
    (fun _ _ _ _ => h.index_eq) fun q hq i v n _ hn => (hpoke hq i v).2 n (by omega)
  obtain ⟨hnd, hals, hhis⟩ := h.add_page hnew hal hhi (l := used ++ (free ++ [p &&& pageAddrMask]))
    (by rw [← append_assoc]; exact perm_append_singleton _ _)
  have hlay := (hpoke hq (free.length % 1024) (p &&& pageAddrMask)).1.setStack
    (m.pmmStackLoc + 4) m.pmmStackMax
  exact ⟨_, hcall, rfl, ⟨hpile, hlay, hnd, hals, hhis⟩,
    hpile.load_slot hlay.selfMapped.walks h.loc (by simp)⟩

/-- **`pmm_free_page`** makes the page part of a full stack, and pushes it otherwise. -/
theorem Holds.freePage : ∃ m', pmmFreePage m p = some m' ∧ m'.pmmLocation = m.pmmLocation ∧
      if m.pmmStackMax ≤ m.pmmStackLoc then Holds m' D (used ++ [p &&& pageAddrMask]) free
      else Holds m' D used (free ++ [p &&& pageAddrMask]) ∧
        m'.load m.pmmStackLoc = some (p &&& pageAddrMask) := by
  have hpa : (p &&& pageAddrMask).toNat = p.toNat / 4096 * 4096 := Word32.toNat_aligned p
  have hal : (p &&& pageAddrMask).toNat % 4096 = 0 := by omega
  have hhi : m.pmmLocation.toNat ≤ (p &&& pageAddrMask).toNat := by
    rw [lt_iff_toNat_lt] at hlow
    omega
  by_cases hfull : m.pmmStackMax ≤ m.pmmStackLoc
  · obtain ⟨m', hm', h'⟩ := h.extend hnew hal hhi (h.full_iff.mp hfull)
    refine ⟨m', ?_, ?_, by rw [if_pos hfull]; exact h'⟩
    · simp only [pmmFreePage, if_neg hlow, if_pos hfull]
      rw [← hm', map_eq_bind]
      rfl
    · obtain ⟨hva, hne⟩ := h.map_max (h.capacity_of_full hnew hal hhi (h.full_iff.mp hfull))
      rw [map_of_present h.layout.selfMapped hva hne] at hm'
      rw [← some.inj hm']
      rfl
  · have hroom : free.length < 1024 * used.length :=
      lt_of_le_of_ne h.room fun hc => hfull (h.full_iff.mpr hc)
    obtain ⟨m', hm', hloc, h'⟩ := h.push hnew hlow hal hhi hroom
    exact ⟨m', hm', hloc, by rw [if_neg hfull]; exact h'⟩

end

theorem Tracks.cons {used' free' : List UInt32} {u : Use} (ht : Tracks hist used free)
    (hp : p ∉ used) (hfree : ∀ q, q ∈ free' ↔ if q = p then u = .free else q ∈ free)
    (hused : ∀ q, q ∈ used' ↔ if q = p then u = .stack else q ∈ used) :
    Tracks ((p, u) :: hist) used' free' where
  free_iff q := by
    rw [lastUse_cons, hfree]
    split
    · simp
    · exact ht.free_iff q
  stack_iff q := by
    rw [lastUse_cons, hused]
    split
    · simp
    · exact ht.stack_iff q
  mem_used q hq := by
    rw [hused]
    rcases mem_cons.mp hq with hq | hq
    · cases hq
      simp
    · have hmem := ht.mem_used q hq
      have hne : q ≠ p := fun hc => hp (hc ▸ hmem)
      rwa [if_neg hne]

theorem Tracks.extend (ht : Tracks hist used free) (hnew : p ∉ used ++ free) :
    Tracks ((p, .stack) :: hist) (used ++ [p]) free := by
  rw [mem_append, not_or] at hnew
  refine ht.cons hnew.1 (fun q => ?_) fun q => ?_
  · by_cases hq : q = p <;> simp [hq, hnew]
  · by_cases hq : q = p <;> simp [hq]

theorem Tracks.push (ht : Tracks hist used free) (hnew : p ∉ used ++ free) :
    Tracks ((p, .free) :: hist) used (free ++ [p]) := by
  rw [mem_append, not_or] at hnew
  refine ht.cons hnew.1 (fun q => ?_) fun q => ?_
  · by_cases hq : q = p <;> simp [hq]
  · by_cases hq : q = p <;> simp [hq, hnew]

theorem Tracks.pop (ht : Tracks hist used (free ++ [p])) (hp : p ∉ used ++ free) :
    Tracks ((p, .out) :: hist) used free := by
  rw [mem_append, not_or] at hp
  refine ht.cons hp.1 (fun q => ?_) fun q => ?_
  · by_cases hq : q = p <;> simp [hq, hp]
  · by_cases hq : q = p <;> simp [hq, hp]

/-- **One call of `pmm_free_page`** pushes the page below `pmm_stack_max`, or uses it up. -/
theorem Holds.free_step (h : Holds m D used free) (ht : Tracks hist used free)
    (hp : MayFree m hist p) :
    ∃ m' used' free', pmmFreePage m p = some m' ∧ Holds m' D used' free' ∧
      Tracks ((p &&& pageAddrMask,
        if m.pmmStackMax ≤ m.pmmStackLoc then Use.stack else Use.free) :: hist) used' free' ∧
      (m.pmmStackLoc < m.pmmStackMax →
        m.pmmStackLoc.toNat + 4 ≤ m.pmmStackMax.toNat ∧
          m'.load m.pmmStackLoc = some (p &&& pageAddrMask)) := by
  obtain ⟨hge, hnf, hns⟩ := hp
  have hnew := ht.notMem hnf hns
  have hlow : ¬(p &&& pageAddrMask) < m.pmmLocation := by
    have hpa : (p &&& pageAddrMask).toNat = p.toNat / 4096 * 4096 := Word32.toNat_aligned p
    have hge' := le_iff_toNat_le.mp hge
    have hloc := h.layout.location
    rw [lt_iff_toNat_lt]
    omega
  obtain ⟨m', hm', -, h'⟩ := h.freePage hnew hlow
  by_cases hfull : m.pmmStackMax ≤ m.pmmStackLoc
  · rw [if_pos hfull] at h' ⊢
    refine ⟨m', _, _, hm', h', ht.extend hnew, fun hlt => ?_⟩
    exact absurd (lt_iff_toNat_lt.mp hlt) (Nat.not_lt.mpr (le_iff_toNat_le.mp hfull))
  · rw [if_neg hfull] at h' ⊢
    have hroom : free.length < 1024 * used.length :=
      lt_of_le_of_ne h.room fun hc => hfull (h.full_iff.mpr hc)
    refine ⟨m', _, _, hm', h'.1, ht.push hnew, fun _ => ⟨?_, h'.2⟩⟩
    rw [h.loc, h.max]
    omega

/-- **One call of `pmm_alloc_page`** on a stack that is not empty returns a free page. -/
theorem Holds.alloc_step (h : Holds m D used free) (ht : Tracks hist used free)
    (hne : pmmStackStart < m.pmmStackLoc) :
    ∃ p m' free', pmmAllocPage m = some (p, m') ∧ p ∈ free ∧ p ∉ used ∧ Holds m' D used free' ∧
      Tracks ((p, .out) :: hist) used free' := by
  have hpos : 0 < free.length := by
    have := lt_iff_toNat_lt.mp hne
    rw [h.loc, pmmStackStart, show (0xFF7FF000 : UInt32).toNat = 0xFF7FF000 by decide] at this
    omega
  obtain ⟨rest, p, rfl⟩ := eq_nil_or_concat free |>.resolve_left (ne_nil_of_length_pos hpos)
  rw [concat_eq_append] at h ht ⊢
  obtain ⟨m', hm', h'⟩ := h.pop
  have hnd := h.nodup
  rw [← append_assoc] at hnd
  have hp : p ∉ used ++ rest := fun hc =>
    (nodup_append.mp hnd).2.2 p hc p (mem_singleton_self p) rfl
  exact ⟨p, m', rest, hm', mem_append_right _ (mem_singleton_self p),
    fun hc => hp (mem_append_left _ hc), h', ht.pop hp⟩

/-- **After any run** the stack holds the free pages, in the pages used up for it. -/
theorem holds_of_run {m0 : Machine} (h0 : PagingStarted m0 D) (h : StackRun m0 hist m) :
    ∃ used free, Holds m D used free ∧ Tracks hist used free := by
  induction h with
  | start => exact ⟨[], [], h0.holds, by simp [lastUse], by simp [lastUse], by simp⟩
  | free _ hp heq ih =>
    obtain ⟨used, free, hh, ht⟩ := ih
    obtain ⟨m'', used', free', heq', hh', ht', -⟩ := hh.free_step ht hp
    cases heq.symm.trans heq'
    exact ⟨used', free', hh', ht'⟩
  | alloc _ hne heq ih =>
    obtain ⟨used, free, hh, ht⟩ := ih
    obtain ⟨p', m'', free', heq', -, -, hh', ht'⟩ := hh.alloc_step ht hne
    cases heq.symm.trans heq'
    exact ⟨used, free', hh', ht'⟩

/-- **The page stack hands out free pages only, and fits its address range**: a page taken was
freed, not handed out since and never used up; a page may be freed in every state, and is stored
below `pmm_stack_max`. -/
theorem pageStack_of_run {m₀ : Machine} {D : ℕ} (h₀ : PagingStarted m₀ D)
    {hist : List (UInt32 × Use)} {m : Machine} (hrun : StackRun m₀ hist m) :
    pmmStackStart ≤ m.pmmStackLoc ∧ m.pmmStackLoc ≤ m.pmmStackMax ∧
    m.pmmStackMax ≤ pmmStackEnd ∧
    (pmmStackStart < m.pmmStackLoc → ∃ p m', pmmAllocPage m = some (p, m') ∧
      lastUse hist p = some .free ∧ (p, Use.stack) ∉ hist) ∧
    (∀ p, MayFree m hist p → ∃ m', pmmFreePage m p = some m' ∧
      (m.pmmStackLoc < m.pmmStackMax → m.pmmStackLoc.toNat + 4 ≤ m.pmmStackMax.toNat ∧
        m'.load m.pmmStackLoc = some (p &&& pageAddrMask))) := by
  obtain ⟨used, free, h, ht⟩ := holds_of_run h₀ hrun
  have hroom := h.room
  have hcap := h.capacity
  refine ⟨?_, ?_, ?_, ?_, ?_⟩
  · rw [le_iff_toNat_le, h.loc]
    exact Nat.le_add_right _ _
  · rw [le_iff_toNat_le, h.loc, h.max]
    omega
  · rw [le_iff_toNat_le, h.max, pmmStackEnd,
      show (0xFFBFF000 : UInt32).toNat = 0xFFBFF000 by decide]
    omega
  · intro hne
    obtain ⟨p, m', free', hm', hpf, hpu, -, -⟩ := h.alloc_step ht hne
    exact ⟨p, m', hm', (ht.free_iff p).mpr hpf, fun hc => hpu (ht.mem_used p hc)⟩
  · intro p hp
    obtain ⟨m', -, -, hm', -, -, hpush⟩ := h.free_step ht hp
    exact ⟨m', hm', hpush⟩

/-- The sample machine with an empty page stack. -/
def startedMachine : Machine :=
  { sampleMachine with pmmStackLoc := pmmStackStart, pmmStackMax := pmmStackStart }

theorem pagingStarted_startedMachine : PagingStarted startedMachine 16 where
  layout :=
    { selfMapped := selfMapped_sampleMachine.congr ⟨rfl, rfl, rfl, rfl, rfl⟩ (fun _ _ => rfl) rfl
      active := rfl
      location := by decide
      stackTable := by decide
      low_dir := by decide
      low_table := by
        intro i hi h
        rcases sampleMachine_directory hi h with rfl | rfl <;> decide }
  loc := rfl
  max := rfl

/-- The first page freed extends the stack, the second is pushed, and one can be taken. -/
theorem pageStack_of_run_startedMachine : PagingStarted startedMachine 16 ∧
    ∃ m, StackRun startedMachine [(0x21000, .free), (0x20000, .stack)] m ∧
      ∃ p m', pmmAllocPage m = some (p, m') ∧
        lastUse [(0x21000, .free), (0x20000, .stack)] p = some .free := by
  have hrun : ((pmmFreePage startedMachine 0x20000).bind fun m =>
      (pmmFreePage m 0x21000).map fun m' =>
        (m.pmmStackLoc, m.pmmStackMax, m.pmmLocation, m'.pmmStackLoc)) =
      some (pmmStackStart, pmmStackStart + pageSize, 0x13000, pmmStackStart + 4) := by decide
  obtain ⟨m1, h1, hrest⟩ := bind_eq_some_iff.mp hrun
  obtain ⟨m2, h2, hvals⟩ := map_eq_some_iff.mp hrest
  simp only [Prod.mk.injEq] at hvals
  obtain ⟨hloc, hmax, hlow, hloc'⟩ := hvals
  have run1 : StackRun startedMachine [(0x20000, .stack)] m1 :=
    .free .start ⟨by decide, by decide, by decide⟩ h1
  have run2 := StackRun.free run1 ⟨by rw [hlow]; decide, by decide, by decide⟩ h2
  rw [hloc, hmax] at run2
  have hne : pmmStackStart < m2.pmmStackLoc := by rw [hloc']; decide
  obtain ⟨p, m', hm', hp, -⟩ :=
    (pageStack_of_run pagingStarted_startedMachine run2).2.2.2.1 hne
  exact ⟨pagingStarted_startedMachine, m2, run2, p, m', hm', hp⟩

end AthenX.Paging
