import AthenX.Multiboot.Collect

/-!
# Two walks over one table

`get_kernel_memory_map` goes on by `sizeof(MULTIBOOT_MEMORY_MAP)`, where `pmm_collect_pages` adds
the size of the entry. Behind an entry larger than the structure it reads entries that are not
there.
-/

namespace AthenX.Multiboot

open List UInt32

/-- The search has ended, after the entries visited in `c` up to the one it looked for. -/
structure Agrees (r : Search) (c : Collected) : Prop where
  done : r.done = true
  visits : r.visited <+: c.visited
  all : r.found = none → c.done = true ∧ r.visited = c.visited

variable {fuel : ℕ} {text : UInt32}

section

variable {mem : Memory} {info : Info} {a b i : UInt32} {es : List MemoryMap}

theorem search_found (h : (search mem info text fuel i).visited = []) :
    (search mem info text fuel i).found = none := by
  cases fuel with
  | zero => rfl
  | succ fuel =>
    by_cases hi : i < info.mmapLength
    · by_cases hh : (memoryMapAt mem (info.mmapAddr + i)).holds text
      · simp [search, hi, hh] at h
      · simp [search, hi, hh] at h
    · simp [search, hi]

theorem search_cons (hi : i < info.mmapLength) (ha : info.mmapAddr + i = a)
    (hh : (memoryMapAt mem a).holds text = false) :
    search mem info text (fuel + 1) i =
      let r := search mem info text fuel (i + sizeofMemoryMap)
      ⟨a :: r.visited, r.found, r.done⟩ := by
  subst ha
  simp [search, hi, hh]

theorem search_holds (hi : i < info.mmapLength) (ha : info.mmapAddr + i = a)
    (hh : (memoryMapAt mem a).holds text = true) :
    search mem info text (fuel + 1) i = ⟨[a], some a, true⟩ := by
  subst ha
  simp [search, hi, hh]

theorem search_head (hi : i < info.mmapLength) (hdone : (search mem info text fuel i).done = true) :
    ∃ l, (search mem info text fuel i).visited = (info.mmapAddr + i) :: l := by
  cases fuel with
  | zero => cases hdone
  | succ fuel =>
    cases hh : (memoryMapAt mem (info.mmapAddr + i)).holds text with
    | true =>
      rw [search_holds hi rfl hh]
      exact ⟨[], rfl⟩
    | false =>
      rw [search_cons hi rfl hh]
      exact ⟨_, rfl⟩

theorem collect_head {x : UInt32} {l : List UInt32}
    (h : x :: l <+: (collect mem b fuel a).visited) : x = a := by
  cases fuel with
  | zero => cases prefix_nil.mp h
  | succ fuel =>
    by_cases hlt : a < b
    · cases hentry : (collectEntry fuel (memoryMapAt mem a)).2 with
      | false =>
        rw [collect_endless hlt hentry] at h
        exact (cons_prefix_cons.mp h).1
      | true =>
        rw [collect_cons hlt hentry] at h
        exact (cons_prefix_cons.mp h).1
    · simp [collect, hlt] at h

/-- The offset `i` is that of the address `a`, in a table that ends at `b`. -/
structure Offset (info : Info) (i a b : UInt32) : Prop where
  addr : info.mmapAddr.toNat + i.toNat = a.toNat
  stop : info.mmapAddr.toNat + info.mmapLength.toNat = b.toNat

theorem Offset.add_eq (h : Offset info i a b) : info.mmapAddr + i = a := by
  have haddr := h.addr
  have hlt := a.toNat_lt
  rw [← UInt32.toNat_inj, UInt32.toNat_add]
  omega

theorem Offset.lt_iff (h : Offset info i a b) : i < info.mmapLength ↔ a < b := by
  have haddr := h.addr
  have hstop := h.stop
  rw [lt_iff_toNat_lt, lt_iff_toNat_lt]
  omega

theorem ValidMap.offset (h : ValidMap mem info es) :
    Offset info 0 info.mmapAddr (info.mmapAddr + info.mmapLength) := by
  have hwrap := h.noWrap
  refine ⟨rfl, ?_⟩
  rw [UInt32.toNat_add]
  omega

theorem Offset.next (h : Offset info i a b) (hle : a.toNat + 24 ≤ b.toNat) :
    Offset info (i + sizeofMemoryMap) (a + sizeofMemoryMap) b ∧
      (a + sizeofMemoryMap).toNat = a.toNat + 24 := by
  have haddr := h.addr
  have hlt := b.toNat_lt
  have hsize : sizeofMemoryMap.toNat = 24 := rfl
  have hanext : (a + sizeofMemoryMap).toNat = a.toNat + 24 := by
    rw [UInt32.toNat_add]
    omega
  refine ⟨⟨?_, h.stop⟩, hanext⟩
  rw [UInt32.toNat_add]
  omega

/-- The entries in front of the one that the kernel looks for. -/
def ahead (text : UInt32) (es : List MemoryMap) : List MemoryMap :=
  es.takeWhile fun e => !e.holds text

theorem ahead_cons {e : MemoryMap} {es : List MemoryMap}
    (h : e.holds text = false) : ahead text (e :: es) = e :: ahead text es := by
  simp [ahead, h]

theorem agrees_of_sizes (hl : Laid mem a es b) (ho : Offset info i a b)
    (h : ∀ e ∈ ahead text es, e.size = 20 ∧ (e.type = memoryAvailable → e.Ends)) :
    ∃ fuel n, ∀ fuel' ≥ n, Agrees (search mem info text fuel i) (collect mem b fuel' a) := by
  induction hl generalizing i with
  | nil a =>
    have hi : ¬i < info.mmapLength := fun hc => UInt32.lt_irrefl a (ho.lt_iff.mp hc)
    refine ⟨1, 1, fun fuel' hfuel => ?_⟩
    obtain ⟨fuel', rfl⟩ := Nat.exists_eq_add_of_le' hfuel
    simp only [search, collect, hi, UInt32.lt_irrefl]
    exact ⟨rfl, prefix_refl _, fun _ => ⟨rfl, rfl⟩⟩
  | @cons a b e es hat hsize hwrap hl ih =>
    subst hat
    have hlt := lt_of_laid hwrap hl
    have hi := ho.lt_iff.mpr hlt
    cases hh : (memoryMapAt mem a).holds text with
    | true =>
      refine ⟨1, 1, fun fuel' hfuel => ?_⟩
      obtain ⟨fuel', rfl⟩ := Nat.exists_eq_add_of_le' hfuel
      rw [search_holds hi ho.add_eq hh]
      refine ⟨rfl, ?_, fun hc => by cases hc⟩
      cases hentry : (collectEntry fuel' (memoryMapAt mem a)).2 with
      | false =>
        simp [collect_endless hlt hentry]
      | true =>
        rw [collect_cons hlt hentry]
        exact ⟨_, rfl⟩
    | false =>
      rw [ahead_cons hh] at h
      obtain ⟨hsz, hends⟩ := h _ mem_cons_self
      have hle := hl.le
      rw [toNat_next hwrap] at hle
      obtain ⟨ho', -⟩ := ho.next (by omega)
      rw [hsz] at ih
      obtain ⟨fuel, n, hn⟩ := @ih (i + sizeofMemoryMap) ho' fun e he =>
        h e (mem_cons_of_mem _ he)
      refine ⟨fuel + 1, max n ((memoryMapAt mem a).count + 1) + 1, fun fuel' hfuel => ?_⟩
      obtain ⟨fuel', rfl⟩ := Nat.exists_eq_add_of_le' (Nat.le_of_add_left_le hfuel)
      obtain ⟨-, hended⟩ := MemoryMap.collectEntry_pages hends
        (show (memoryMapAt mem a).count < fuel' by omega)
      obtain ⟨hdone, hvisits, hall⟩ := hn fuel' (by omega)
      rw [search_cons hi ho.add_eq hh, collect_cons hlt hended, hsz]
      refine ⟨hdone, cons_prefix_cons.mpr ⟨rfl, hvisits⟩, fun hnone => ?_⟩
      obtain ⟨hdone', heq⟩ := hall hnone
      exact ⟨hdone', congrArg (a :: ·) heq⟩

theorem sizes_of_agrees (hl : Laid mem a es b) (ho : Offset info i a b) {fuel' : ℕ}
    (h : Agrees (search mem info text fuel i) (collect mem b fuel' a)) :
    ∀ e ∈ ahead text es, e.size = 20 ∧ (e.type = memoryAvailable → e.Ends) := by
  induction hl generalizing i fuel fuel' with
  | nil a => simp [ahead]
  | @cons a b e es hat hsize hwrap hl ih =>
    subst hat
    have hlt := lt_of_laid hwrap hl
    have hi := ho.lt_iff.mpr hlt
    cases hh : (memoryMapAt mem a).holds text with
    | true => simp [ahead, hh]
    | false =>
      rw [ahead_cons hh]
      cases fuel with
      | zero => cases h.done
      | succ fuel =>
      cases fuel' with
      | zero =>
        have hvisits := h.visits
        rw [search_cons hi ho.add_eq hh] at hvisits
        cases prefix_nil.mp hvisits
      | succ fuel' =>
      rw [search_cons hi ho.add_eq hh] at h
      cases hentry : (collectEntry fuel' (memoryMapAt mem a)).2 with
      | false =>
        -- the page loop does not end, and the search should have ended here
        rw [collect_endless hlt hentry] at h
        have hnil := prefix_nil.mp (cons_prefix_cons.mp h.visits).2
        cases (h.all (search_found hnil)).1
      | true =>
        rw [collect_cons hlt hentry] at h
        have hends : (memoryMapAt mem a).type = memoryAvailable → (memoryMapAt mem a).Ends := by
          intro ht
          by_contra hends
          rw [MemoryMap.collectEntry_endless ht hends] at hentry
          cases hentry
        have hle := hl.le
        rw [toNat_next hwrap] at hle
        obtain ⟨ho', hanext⟩ := ho.next (by omega)
        have hrest : Agrees (search mem info text fuel (i + sizeofMemoryMap))
            (collect mem b fuel' (a + ((memoryMapAt mem a).size + 4))) := by
          refine ⟨h.done, (cons_prefix_cons.mp h.visits).2, fun hnone => ?_⟩
          obtain ⟨hdone, heq⟩ := h.all hnone
          exact ⟨hdone, (List.cons.inj heq).2⟩
        -- the next entry that is visited starts right behind the structure
        have hsz : (memoryMapAt mem a).size = 20 := by
          by_contra hne
          have hne' : (memoryMapAt mem a).size.toNat ≠ 20 := fun hc => hne (UInt32.toNat_inj.mp hc)
          have hlt' : a + sizeofMemoryMap < b := by
            rw [lt_iff_toNat_lt]
            omega
          obtain ⟨l, hsearch⟩ := search_head (ho'.lt_iff.mpr hlt') hrest.done
          have hvisits := hrest.visits
          rw [hsearch, ho'.add_eq] at hvisits
          have hnext := collect_head hvisits
          rw [← UInt32.toNat_inj, toNat_next hwrap] at hnext
          omega
        rw [hsz] at ih hrest
        intro e he
        rcases mem_cons.mp he with rfl | he
        · exact ⟨hsz, hends⟩
        · exact ih ho' hrest e he

end

/-! ### `get_kernel_memory_map` and `pmm_collect_pages` -/

/-- `get_kernel_memory_map` has visited the entries of `pmm_collect_pages`, up to the one it looked
for, and reports one of its available entries. -/
structure SameEntries (mem : Memory) (g : Search × Option (Option KernelMemoryMap × Int32))
    (c : Collected) : Prop where
  visits : g.1.visited <+: c.visited
  all : g.1.found = none → c.done = true ∧ g.1.visited = c.visited
  region : ∃ kmap, g.2 = some (some kmap, -1) ∨ g.2 = some (some kmap, 0) ∧
    ∃ a ∈ c.visited, (memoryMapAt mem a).type = memoryAvailable ∧
      kmap.available.endAddr = (memoryMapAt mem a).limit

section

variable {mem : Memory} {info : Info} {es : List MemoryMap}

theorem search_found_mem {i a : UInt32} (h : (search mem info text fuel i).found = some a) :
    a ∈ (search mem info text fuel i).visited ∧ (memoryMapAt mem a).holds text = true ∧
      (search mem info text fuel i).done = true := by
  induction fuel generalizing i with
  | zero => cases h
  | succ fuel ih =>
    by_cases hi : i < info.mmapLength
    · cases hh : (memoryMapAt mem (info.mmapAddr + i)).holds text with
      | true =>
        rw [search_holds hi rfl hh] at h ⊢
        cases h
        exact ⟨mem_singleton_self _, hh, rfl⟩
      | false =>
        rw [search_cons hi rfl hh] at h ⊢
        obtain ⟨hmem, hrest⟩ := ih h
        exact ⟨mem_cons_of_mem _ hmem, hrest⟩
    · simp [search, hi] at h

theorem getKernelMemoryMap_fst (fuel : ℕ) (sections : KernelSections) (kmap : KernelMemoryMap) :
    (getKernelMemoryMap fuel mem info sections (some kmap)).1 =
      search mem info sections.text.startAddr fuel 0 := by
  simp only [getKernelMemoryMap]
  split <;> rfl

theorem sameEntries_iff_agrees {sections : KernelSections} {kmap : KernelMemoryMap}
    {c : Collected} :
    SameEntries mem (getKernelMemoryMap fuel mem info sections (some kmap)) c ↔
      Agrees (search mem info sections.text.startAddr fuel 0) c := by
  have hfst : (getKernelMemoryMap fuel mem info sections (some kmap)).1 = _ :=
    getKernelMemoryMap_fst fuel sections kmap
  constructor
  · rintro ⟨hvisits, hall, hregion⟩
    rw [hfst] at hvisits hall
    refine ⟨?_, hvisits, hall⟩
    cases hfound : (search mem info sections.text.startAddr fuel 0).found with
    | some a => exact (search_found_mem hfound).2.2
    | none =>
      by_contra hdone
      simp [getKernelMemoryMap, Section.extent, hfound, hdone] at hregion
  · intro h
    refine ⟨by rw [hfst]; exact h.visits, by rw [hfst]; exact h.all, ?_⟩
    cases hfound : (search mem info sections.text.startAddr fuel 0).found with
    | some a =>
      obtain ⟨hmem, hholds, -⟩ := search_found_mem hfound
      have havail : (memoryMapAt mem a).type = memoryAvailable := by
        simp only [MemoryMap.holds, Bool.and_eq_true, decide_eq_true_eq] at hholds
        exact hholds.1
      simp only [getKernelMemoryMap, Section.extent, hfound]
      exact ⟨_, .inr ⟨rfl, a, h.visits.subset hmem, havail, rfl⟩⟩
    | none =>
      simp only [getKernelMemoryMap, Section.extent, hfound, h.done]
      exact ⟨_, .inl rfl⟩

/-- **The two walks.**  `get_kernel_memory_map` visits the entries that `pmm_collect_pages`
visits, up to the one it returns at, if and only if each entry in front of that one has the
size of the structure, and `pmm_collect_pages` gets past it. -/
theorem sameEntries_iff (hv : ValidMap mem info es) (sections : KernelSections)
    (kmap : KernelMemoryMap) :
    (∃ fuel fuel', SameEntries mem (getKernelMemoryMap fuel mem info sections (some kmap))
      (pmmCollectPages fuel' mem info)) ↔
    ∀ e ∈ ahead sections.text.startAddr es, e.size = 20 ∧ (e.type = memoryAvailable → e.Ends) := by
  have ho := hv.offset
  constructor
  · rintro ⟨fuel, fuel', h⟩
    exact sizes_of_agrees hv.laid ho (sameEntries_iff_agrees.mp h)
  · intro h
    obtain ⟨fuel, n, hn⟩ := agrees_of_sizes hv.laid ho h
    exact ⟨fuel, n, sameEntries_iff_agrees.mpr (hn n (Nat.le_refl n))⟩

end

/-- The sections of a kernel that is loaded at 1 MB. -/
def kernelAtMegabyte : KernelSections :=
  ⟨⟨0x100000, 0x180000⟩, ⟨0x100000, 0x140000⟩, ⟨0x140000, 0x150000⟩, ⟨0x150000, 0x160000⟩,
    ⟨0x160000, 0x180000⟩⟩

/-- A map that is not filled in. -/
def emptyKernelMap : KernelMemoryMap :=
  ⟨⟨0, 0, 0⟩, ⟨0, 0, 0⟩, ⟨0, 0, 0⟩, ⟨0, 0, 0⟩, ⟨0, 0, 0⟩, 0, ⟨0, 0, 0⟩⟩

/-- A table with a reserved page in front of the range of the kernel. -/
def plainTable : Memory :=
  ofWords [20, 0x9F000, 0, 0x1000, 0, 2, 20, 0x100000, 0, 0x100000, 0, 1]

theorem sameEntries_plain :
    ValidMap plainTable ⟨0, 0, 48, 0⟩ [⟨20, 0x9F000, 0, 0x1000, 0, 2⟩, lowRange] ∧
    ∃ fuel fuel', SameEntries plainTable
      (getKernelMemoryMap fuel plainTable ⟨0, 0, 48, 0⟩ kernelAtMegabyte (some emptyKernelMap))
      (pmmCollectPages fuel' plainTable ⟨0, 0, 48, 0⟩) := by
  have hv : ValidMap plainTable ⟨0, 0, 48, 0⟩ [⟨20, 0x9F000, 0, 0x1000, 0, 2⟩, lowRange] :=
    ⟨by decide, .cons (by decide) (by decide) (by decide)
      (.cons (by decide) (by decide) (by decide) (.nil _))⟩
  refine ⟨hv, (sameEntries_iff hv kernelAtMegabyte emptyKernelMap).mpr fun e he => ?_⟩
  rw [mem_singleton.mp he]
  exact ⟨rfl, fun hc => absurd hc (by decide)⟩

/-- The same table, with one more word in the first entry. -/
def extendedTable : Memory :=
  ofWords [24, 0x9F000, 0, 0x1000, 0, 2, 1, 20, 0x100000, 0, 0x100000, 0, 1]

theorem sameEntries_extended :
    ValidMap extendedTable ⟨0, 0, 52, 0⟩ [⟨24, 0x9F000, 0, 0x1000, 0, 2⟩, lowRange] ∧
    (getKernelMemoryMap 10 extendedTable ⟨0, 0, 52, 0⟩ kernelAtMegabyte
      (some emptyKernelMap)).1.visited = [0, 24, 48] ∧
    (∃ kmap, (getKernelMemoryMap 10 extendedTable ⟨0, 0, 52, 0⟩ kernelAtMegabyte
      (some emptyKernelMap)).2 = some (some kmap, -1)) ∧
    ¬∃ fuel fuel', SameEntries extendedTable
      (getKernelMemoryMap fuel extendedTable ⟨0, 0, 52, 0⟩ kernelAtMegabyte
        (some emptyKernelMap)) (pmmCollectPages fuel' extendedTable ⟨0, 0, 52, 0⟩) := by
  have hv : ValidMap extendedTable ⟨0, 0, 52, 0⟩ [⟨24, 0x9F000, 0, 0x1000, 0, 2⟩, lowRange] :=
    ⟨by decide, .cons (by decide) (by decide) (by decide)
      (.cons (by decide) (by decide) (by decide) (.nil _))⟩
  refine ⟨hv, by decide, ⟨_, rfl⟩, ?_⟩
  rintro ⟨fuel, fuel', h⟩
  have hsizes := sizes_of_agrees hv.laid hv.offset (sameEntries_iff_agrees.mp h)
  have hsize := (hsizes ⟨24, 0x9F000, 0, 0x1000, 0, 2⟩ (by decide)).1
  exact absurd hsize (by decide)

end AthenX.Multiboot
