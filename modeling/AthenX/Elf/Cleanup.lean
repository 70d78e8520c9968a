import AthenX.Elf.Load

/-!
# After a program

The whole of `load_elf_executable`. When `kmalloc` returns null for a segment the function returns
at once; otherwise it calls the program, unmaps the pages in `va_address` and frees the blocks in
`pa_address`. Each segment writes its pages to `va_address` from entry zero on and a zero behind
them, while `va_count` counts all pages. Nothing is ever written to `pa_address`.

A program is what it does to the memory. A fault, or an index behind the arrays, does not return.
-/

namespace AthenX.Elf

open KHeap Paging List Option Function

/-! ### The source -/

/-- `ELFMAG`. -/
def elfMagic : List UInt8 := [0x7f, 0x45, 0x4c, 0x46]

/-- The loop over `va_address` from entry `i` on, with `n` iterations to go. -/
def unmapPages : ℕ → ℕ → Loader → Option Loader
  | 0, _, s => some s
  | n + 1, i, s =>
      if maxPages ≤ i then none
      else if s.vaAddress i ≠ 0 then
        match storeBytes s.pages (fun _ => 0) 4096 0 (s.vaAddress i) s.mem with
        | (_, false) => none
        | (m, true) => unmapPages n (i + 1) { s with
            mem := m
            pages := Function.update s.pages ((s.vaAddress i).toNat / 4096) 0
            vaAddress := Function.update s.vaAddress i 0 }
      else unmapPages n (i + 1) s

/-- The loop over `pa_address` from entry `i` on, with `n` iterations to go. -/
def freeBlocks (fuel : ℕ) : ℕ → ℕ → Loader → Option Loader
  | 0, _, s => some s
  | n + 1, i, s =>
      if maxPages ≤ i then none
      else (kfree fuel s.heap (s.paAddress i)).bind fun h =>
        freeBlocks fuel n (i + 1)
          { s with heap := h, paAddress := Function.update s.paAddress i 0 }

/-- At the start of a call nothing has happened. -/
def Loader.begin (s : Loader) : Loader := { s with mapped := [] }

/-- What a program does to the memory. -/
abbrev Program := (ℕ → UInt8) → ℕ → UInt8

/-- `load_elf_executable`. -/
def loadElfExecutable (fuel : ℕ) (program : Program) (elf : Image) (s : Loader) : Option Loader :=
  if elf.ident ≠ elfMagic then some s.begin
  else (loadSegments fuel elf elf.phdrs s.begin).bind fun (s, status) =>
    if s.overrun then none
    else match status with
      | .fault => none
      | .noMemory => some s
      | .running =>
          (unmapPages s.vaCount 0 { s with mem := program s.mem }).bind fun s =>
            (freeBlocks fuel s.paCount 0 { s with vaCount := 0 }).map fun s =>
              { s with paCount := 0 }

/-! ### The property and the condition -/

/-- The pages that were mapped are unmapped, and the blocks that were allocated are freed. -/
def Released (ns : List NodePtr) (s s' : Loader) : Prop :=
  (∀ x ∈ s'.mapped, s'.pages x.page = 0) ∧
    ∀ q ∈ ns, (s'.heap.node q).allocated = (s.heap.node q).allocated

/-- The pages of a segment. -/
def Phdr.pages (g : Phdr) : List ℕ :=
  (List.range g.numPages).map fun k => (g.vaddr + 4096 * UInt32.ofNat k).toNat / 4096

/-- The segments that are to be loaded. -/
def loadable (gs : List Phdr) : List Phdr := gs.filter fun g => g.type = ptLoad

/-- The segments of an image. -/
def Image.loads (elf : Image) : List Phdr := loadable elf.phdrs

/-- The segments in front of the first one for which there is no block. -/
def reached (ns : List NodePtr) (h : Heap) (gs : List Phdr) : List Phdr :=
  gs.takeWhile fun g => (blockFor h ns g.filesz).isSome

/-- The entry `i` of `va_address`: that of the last segment with `i` pages or more. -/
def recordedAt (t : ℕ → UInt32) (gs : List Phdr) (i : ℕ) : UInt32 :=
  (gs.filter fun g => i ≤ g.numPages).getLast?.elim (t i) fun g =>
    if i < g.numPages then g.vaddr + 4096 * UInt32.ofNat i else 0

/-- The page `p` is that of an entry of `va_address`. -/
def Recorded (s : Loader) (gs : List Phdr) (p : ℕ) : Prop :=
  ∃ i < s.vaCount + (gs.map Phdr.numPages).sum, recordedAt s.vaAddress gs i ≠ 0 ∧
    (recordedAt s.vaAddress gs i).toNat / 4096 = p

/-- The images after which nothing is left: no segment takes a block, all pages are entries of
`va_address`, and with no block for a segment those in front of it are empty. -/
def Tidy (ns : List NodePtr) (elf : Image) (s : Loader) : Prop :=
  elf.ident = elfMagic →
    (∀ g ∈ reached ns s.heap elf.loads, numBlocks g.filesz = 0) ∧
      if reached ns s.heap elf.loads = elf.loads then
        ∀ g ∈ elf.loads, ∀ p ∈ g.pages, Recorded s elf.loads p
      else ∀ g ∈ reached ns s.heap elf.loads, g.memsz = 0

/-! ### What the loop over the segments leaves -/

/-- The variables after the segments `gs`. -/
structure Loaded (gs : List Phdr) (s s' : Loader) : Prop where
  count : s'.vaCount = s.vaCount + (gs.map Phdr.numPages).sum
  table : ∀ i, s'.vaAddress i = recordedAt s.vaAddress gs i
  mapped : s'.mapped.map Mapping.page = s.mapped.map Mapping.page ++ gs.flatMap Phdr.pages
  fresh : ∀ p, (∃ g ∈ gs, p ∈ g.pages) → s'.pages p ≠ 0
  other : ∀ p, (¬∃ g ∈ gs, p ∈ g.pages) → s'.pages p = s.pages p
  frees : s'.paCount = s.paCount

section

variable {s t s' : Loader} {g : Phdr} {gs : List Phdr}

theorem Loaded.nil (hcount : s'.vaCount = s.vaCount) (htable : s'.vaAddress = s.vaAddress)
    (hmapped : s'.mapped = s.mapped) (hpages : s'.pages = s.pages)
    (hfrees : s'.paCount = s.paCount) : Loaded [] s s' where
  count := hcount
  table := fun i => congrFun htable i
  mapped := by rw [hmapped]; exact (append_nil _).symm
  fresh := by rintro p ⟨g, hg, -⟩; cases hg
  other := fun p _ => congrFun hpages p
  frees := hfrees

theorem recordedAt_cons (t : ℕ → UInt32) (g : Phdr) (gs : List Phdr) (i : ℕ) :
    recordedAt t (g :: gs) i = recordedAt (recordedAt t [g]) gs i := by
  unfold recordedAt
  by_cases hg : i ≤ g.numPages
  · rw [filter_cons_of_pos (by simpa using hg), List.getLast?_cons,
      filter_cons_of_pos (by simpa using hg)]
    cases (gs.filter fun g => i ≤ g.numPages).getLast? <;> rfl
  · rw [filter_cons_of_neg (by simpa using hg), filter_cons_of_neg (by simpa using hg)]
    rfl

theorem Loaded.cons (h1 : Loaded [g] s t) (h2 : Loaded gs t s') : Loaded (g :: gs) s s' where
  count := by
    rw [h2.count, h1.count]
    simp [Nat.add_assoc]
  table := fun i => by
    have htable : t.vaAddress = recordedAt s.vaAddress [g] := funext h1.table
    rw [h2.table, htable, recordedAt_cons]
  mapped := by
    rw [h2.mapped, h1.mapped]
    simp [append_assoc]
  fresh := by
    rintro p ⟨g', hg', hp⟩
    by_cases hlater : ∃ g ∈ gs, p ∈ g.pages
    · exact h2.fresh p hlater
    · rw [h2.other p hlater]
      rcases mem_cons.mp hg' with rfl | hmem
      · exact h1.fresh p ⟨g', mem_singleton_self g', hp⟩
      · exact absurd ⟨g', hmem, hp⟩ hlater
  other := by
    intro p hp
    rw [h2.other p, h1.other p]
    · rintro ⟨g', hg', hpg⟩
      obtain rfl := mem_singleton.mp hg'
      exact hp ⟨g', mem_cons_self, hpg⟩
    · rintro ⟨g', hg', hpg⟩
      exact hp ⟨g', mem_cons_of_mem g hg', hpg⟩
  frees := h2.frees.trans h1.frees

theorem vaAddress_mapPages (before after : Heap) (j : ℕ) :
    ∀ (n i : ℕ) (va region : UInt32) (s : Loader),
      (mapPages before after n i va region s).vaAddress j =
        if i ≤ j ∧ j < i + n then va + 4096 * UInt32.ofNat (j - i) else s.vaAddress j := by
  intro n
  induction n with
  | zero =>
    intro i va region s
    rw [if_neg (by omega)]
    rfl
  | succ n ih =>
    intro i va region s
    rw [mapPages, ih]
    by_cases hij : j = i
    · subst hij
      rw [if_neg (by omega)]
      simp [Loader.mapPage]
    · by_cases hin : i + 1 ≤ j ∧ j < i + 1 + n
      · rw [if_pos hin, if_pos (by omega), add_mul_succ, show j - (i + 1) + 1 = j - i by omega]
      · rw [if_neg hin, if_neg (by omega)]
        exact update_of_ne hij _ _

theorem vaCount_mapPages (before after : Heap) : ∀ (n i : ℕ) (va region : UInt32) (s : Loader),
    (mapPages before after n i va region s).vaCount = s.vaCount + n := by
  intro n
  induction n with
  | zero => exact fun _ _ _ _ => rfl
  | succ n ih => exact fun i va region s => (ih _ _ _ _).trans (Nat.add_right_comm _ _ _)

theorem editPages_spec (p : ℕ) : ∀ (n : ℕ) (va region : UInt32) (pages : ℕ → UInt32),
    ((∃ k < n, (va + 4096 * UInt32.ofNat k).toNat / 4096 = p) →
      editPages n va region pages p ≠ 0) ∧
    ((¬∃ k < n, (va + 4096 * UInt32.ofNat k).toNat / 4096 = p) →
      editPages n va region pages p = pages p) := by
  intro n
  induction n with
  | zero => exact fun _ _ _ => ⟨by simp, fun _ => rfl⟩
  | succ n ih =>
    intro va region pages
    obtain ⟨hmapped, hother⟩ := ih (va + 4096) (region + 4 * 4096)
      (update pages (va.toNat / 4096) (entryFor region))
    simp only [add_mul_succ] at hmapped hother
    have hzero : va + 4096 * UInt32.ofNat 0 = va := by
      rw [show UInt32.ofNat 0 = 0 from rfl, UInt32.mul_zero, UInt32.add_zero]
    rw [editPages]
    constructor
    · rintro ⟨k, hk, hp⟩
      by_cases hlater : ∃ k < n, (va + 4096 * UInt32.ofNat (k + 1)).toNat / 4096 = p
      · exact hmapped hlater
      · cases k with
        | zero =>
          rw [hzero] at hp
          rw [hother hlater, hp, update_self]
          exact ne_zero_of_present (entry_pteOf region (by decide)).1
        | succ k => exact absurd ⟨k, by omega, hp⟩ hlater
    · intro hnot
      rw [hother (by rintro ⟨k, hk, hp⟩; exact hnot ⟨k + 1, by omega, hp⟩), update_of_ne]
      rintro rfl
      exact hnot ⟨0, by omega, by rw [hzero]⟩

theorem mem_pages {p : ℕ} :
    p ∈ g.pages ↔ ∃ k < g.numPages, (g.vaddr + 4096 * UInt32.ofNat k).toNat / 4096 = p := by
  simp [Phdr.pages]

theorem recordedAt_singleton (t : ℕ → UInt32) (g : Phdr) (i : ℕ) :
    recordedAt t [g] i = if i < g.numPages then g.vaddr + 4096 * UInt32.ofNat i
      else if i = g.numPages then 0 else t i := by
  unfold recordedAt
  by_cases hlt : i < g.numPages
  · rw [filter_cons_of_pos (by simpa using hlt.le), if_pos hlt]
    exact if_pos hlt
  · rw [if_neg hlt]
    by_cases heq : i = g.numPages
    · rw [filter_cons_of_pos (by simpa using heq.le), if_pos heq]
      exact if_neg hlt
    · rw [filter_cons_of_neg (by simp; omega), if_neg heq]
      rfl

theorem loaded_mapSegment (s : Loader) (h : Heap) (g : Phdr) (region : UInt32) :
    Loaded [g] s (mapSegment s h g region) := by
  have hcount := vaCount_mapPages s.heap h g.numPages 0 g.vaddr region { s with heap := h }
  obtain ⟨-, -, hfrees, hpages⟩ := mapPages_same s.heap h g.numPages 0 g.vaddr region
    { s with heap := h }
  have hmapped := mapped_mapPages s.heap h g.numPages 0 g.vaddr region { s with heap := h }
  refine ⟨?_, fun i => ?_, ?_, ?_, ?_, hfrees⟩
  · rw [List.map_singleton]
    exact hcount
  · rw [recordedAt_singleton]
    simp only [mapSegment]
    rw [Function.update_apply, vaAddress_mapPages]
    by_cases hi : i = g.numPages
    · rw [if_pos hi, if_neg (by omega), if_pos hi]
    · rw [if_neg hi, if_neg hi]
      simp
  · simp only [mapSegment, hmapped, List.map_append, List.map_map, List.flatMap_singleton]
    rfl
  · rintro p ⟨g', hg', hp⟩
    obtain rfl := List.mem_singleton.mp hg'
    simp only [mapSegment, hpages]
    exact (editPages_spec p _ _ _ _).1 (mem_pages.mp hp)
  · intro p hp
    simp only [mapSegment, hpages]
    exact (editPages_spec p _ _ _ _).2 fun hk => hp ⟨g, List.mem_singleton_self g, mem_pages.mpr hk⟩

theorem loadSegment_loaded {fuel : ℕ} {elf : Image} {status : Status}
    (hret : loadSegment fuel elf g s = some (s', status)) :
    status = .noMemory ∧ Loaded [] s s' ∨ status ≠ .noMemory ∧ Loaded [g] s s' := by
  obtain ⟨⟨h, p⟩, -, he⟩ := map_eq_some_iff.mp hret
  by_cases hp : p = 0
  · simp only [hp] at he
    obtain ⟨rfl, rfl⟩ := he
    exact .inl ⟨rfl, Loaded.nil rfl rfl rfl rfl rfl⟩
  · simp only [hp] at he
    obtain ⟨rfl, rfl⟩ := he
    have hl := loaded_mapSegment s h g p
    exact .inr ⟨status_ne_noMemory _, hl.count, hl.table, hl.mapped, hl.fresh, hl.other, hl.frees⟩

end

/-! ### The loop over the segments -/

section

variable {ns : List NodePtr} {base : List Allocation} {h₀ h h' : Heap} {elf : Image}
  {s s' : Loader} {g : Phdr} {gs : List Phdr} {status : Status} {fuel : ℕ} {size p : UInt32}
  {program : Program}

theorem reached_congr (hn : SameNodes h h')
    (hm : ∀ q, (h'.node q).allocated = (h.node q).allocated) :
    reached ns h' gs = reached ns h gs := by
  simp [reached, blockFor, hn.totalRegionSize, firstFit_congr hm]

/-- What `kmalloc` does to the marks: nothing without a block to take, else there is a new one. -/
structure Takes (ns : List NodePtr) (h h' : Heap) (size p : UInt32) : Prop where
  nodes : SameNodes h h'
  null : p = 0 ↔ blockFor h ns size = none
  same : p = 0 ∨ numBlocks size = 0 → ∀ q, (h'.node q).allocated = (h.node q).allocated
  gains : p ≠ 0 → numBlocks size ≠ 0 →
    ∃ q ∈ ns, (h.node q).allocated = false ∧ (h'.node q).allocated = true
  keeps : ∀ q, (h.node q).allocated = true → (h'.node q).allocated = true

theorem kmalloc_marks (hb : Ready h₀ ns base) (hn : SameNodes h₀ h)
    (hret : Returns (kmalloc · h size) (h', p)) : Takes ns h h' size p := by
  obtain ⟨hactive, hunlocked, hchain, hspaced⟩ := hb.same hn
  obtain ⟨hspares, hnodes, hrun⟩ := kmalloc_spec hactive hunlocked hchain hret
  have hp := kmalloc_blockFor hactive hunlocked hchain hret
  have hnull : p = 0 ↔ blockFor h ns size = none := by
    cases hq : blockFor h ns size with
    | none => simpa [hq] using hp
    | some q =>
      rw [hq] at hp
      simpa [hp] using addr_blockFor_ne_zero hspaced hq
  refine ⟨hnodes, hnull, ?_, ?_, fun q hq => by rw [hspares q hq, hq]⟩
  · rintro h0 q
    rcases hrun with ⟨-, hsame⟩ | ⟨start, rest, -, hf, rfl⟩
    · exact (hsame q).1
    · have hne := hspaced.addr_ne_zero (hf.tail.subset mem_cons_self)
      refine (hf.marked.frame q ?_).1
      rw [← numBlocks, h0.resolve_left hne]
      exact not_mem_nil
  · intro hne hn
    obtain ⟨start, rest, -, hf, -⟩ := hrun.resolve_left fun hnull => hne hnull.1
    have hmem : start ∈ (start :: rest).take (numBlocks size) :=
      mem_take_iff_getElem.mpr ⟨0, by simp; omega, rfl⟩
    exact ⟨start, mem_of_mem_tail (hf.tail.subset mem_cons_self), hf.start_free,
      hf.marked.allocated start hmem⟩

theorem loadable_cons_of_type (hg : g.type = ptLoad) :
    loadable (g :: gs) = g :: loadable gs := filter_cons_of_pos (by simpa using hg)

theorem loadable_cons_of_ne (hg : g.type ≠ ptLoad) : loadable (g :: gs) = loadable gs :=
  filter_cons_of_neg (by simpa using hg)

theorem reached_cons_of_none (hq : blockFor h ns g.filesz = none) : reached ns h (g :: gs) = [] :=
  takeWhile_cons_of_neg (by simp [hq])

theorem reached_cons_of_ne_none (hq : blockFor h ns g.filesz ≠ none) :
    reached ns h (g :: gs) = g :: reached ns h gs :=
  takeWhile_cons_of_pos (isSome_iff_ne_none.mpr hq)

theorem Turns.keeps (hb : Ready h₀ ns base) (hret : Turns fuel elf gs s s' status)
    (hn : SameNodes h₀ s.heap) : SameNodes h₀ s'.heap ∧
      ∀ q, (s.heap.node q).allocated = true → (s'.heap.node q).allocated = true := by
  induction hret with
  | done => exact ⟨hn, fun q hq => hq⟩
  | skip _ _ ih => exact ih hn
  | stop _ hseg _ =>
    obtain ⟨p, hmalloc, -⟩ := loadSegment_spec hseg
    have hm := kmalloc_marks hb hn hmalloc
    exact ⟨hn.trans hm.nodes, hm.keeps⟩
  | turn _ hseg _ ih =>
    obtain ⟨p, hmalloc, -⟩ := loadSegment_spec hseg
    have hm := kmalloc_marks hb hn hmalloc
    obtain ⟨hn', hkeeps⟩ := ih (hn.trans hm.nodes)
    exact ⟨hn', fun q hq => hkeeps q (hm.keeps q hq)⟩

theorem Turns.frees (hret : Turns fuel elf gs s s' status) : s'.paCount = s.paCount := by
  have hseg : ∀ {g : Phdr} {s t : Loader} {status : Status},
      loadSegment fuel elf g s = some (t, status) → t.paCount = s.paCount := fun hseg => by
    rcases loadSegment_loaded hseg with ⟨-, hl⟩ | ⟨-, hl⟩ <;> exact hl.frees
  induction hret with
  | done => rfl
  | skip _ _ ih => exact ih
  | stop _ hret _ => exact hseg hret
  | turn _ hret _ ih => exact ih.trans (hseg hret)

/-- **The blocks**: none is taken if the segments that are reached need none, and otherwise one is,
and stays so. -/
theorem Turns.blocks (hb : Ready h₀ ns base) (hret : Turns fuel elf gs s s' status)
    (hn : SameNodes h₀ s.heap) (hst : status ≠ .fault) :
    ((∀ g ∈ reached ns s.heap (loadable gs), numBlocks g.filesz = 0) ∧
      Loaded (reached ns s.heap (loadable gs)) s s' ∧
      (∀ q, (s'.heap.node q).allocated = (s.heap.node q).allocated) ∧
      (status = .running ↔ reached ns s.heap (loadable gs) = loadable gs)) ∨
    (¬(∀ g ∈ reached ns s.heap (loadable gs), numBlocks g.filesz = 0) ∧
      ∃ q ∈ ns, (s.heap.node q).allocated = false ∧ (s'.heap.node q).allocated = true) := by
  induction hret with
  | done =>
    exact .inl ⟨fun g hg => (nomatch hg), Loaded.nil rfl rfl rfl rfl rfl, fun q => rfl,
      iff_of_true rfl rfl⟩
  | skip htype _ ih =>
    rw [loadable_cons_of_ne htype]
    exact ih hn hst
  | @stop g gs s s' status htype hseg hstop =>
    -- it stops because there is no block
    rw [loadable_cons_of_type htype]
    obtain ⟨p, hmalloc, hcases⟩ := loadSegment_spec hseg
    have hm := kmalloc_marks hb hn hmalloc
    have hmem : status = .noMemory := by
      cases status <;> simp_all
    rcases hcases with ⟨rfl, -⟩ | ⟨-, hne, -⟩
    · rw [reached_cons_of_none (hm.null.mp rfl)]
      rcases loadSegment_loaded hseg with ⟨-, hl⟩ | ⟨hne, -⟩
      · exact .inl ⟨by simp, hl, hm.same (.inl rfl), iff_of_false hstop (by simp)⟩
      · exact absurd hmem hne
    · exact absurd hmem hne
  | @turn g gs s t s' status htype hseg hrest ih =>
    rw [loadable_cons_of_type htype]
    obtain ⟨p, hmalloc, hcases⟩ := loadSegment_spec hseg
    have hm := kmalloc_marks hb hn hmalloc
    rcases hcases with ⟨-, hno, -⟩ | ⟨hp, -⟩
    · cases hno
    rw [reached_cons_of_ne_none fun hq => hp (hm.null.mpr hq), forall_mem_cons]
    by_cases hzero : numBlocks g.filesz = 0
    · have hmarks := hm.same (.inr hzero)
      have hreach : reached ns t.heap (loadable gs) = reached ns s.heap (loadable gs) :=
        reached_congr hm.nodes hmarks
      rw [← hreach]
      rcases ih (hn.trans hm.nodes) hst with
        ⟨hz, hl', hmarks', hrun⟩ | ⟨hz, q, hq, hfree, halloc⟩
      · rcases loadSegment_loaded hseg with ⟨hno, -⟩ | ⟨-, hl⟩
        · cases hno
        exact .inl ⟨⟨hzero, hz⟩, hl.cons hl', fun q => (hmarks' q).trans (hmarks q),
          hrun.trans (by simp)⟩
      · exact .inr ⟨fun hall => hz hall.2, q, hq, (hmarks q).symm.trans hfree, halloc⟩
    · -- a block that is taken stays so
      obtain ⟨q, hq, hfree, halloc⟩ := hm.gains hp hzero
      exact .inr ⟨fun hall => hzero hall.1, q, hq, hfree,
        (hrest.keeps hb (hn.trans hm.nodes)).2 q halloc⟩

/-! ### The loops at the end -/

/-- What the loop over `va_address` does to the entries from `i` to `i + n`. -/
structure Unmapped (i n : ℕ) (s s' : Loader) : Prop where
  cleared : ∀ j, i ≤ j → j < i + n → s.vaAddress j ≠ 0 →
    s'.pages ((s.vaAddress j).toNat / 4096) = 0
  other : ∀ p, (∀ j, i ≤ j → j < i + n → s.vaAddress j ≠ 0 → (s.vaAddress j).toNat / 4096 ≠ p) →
    s'.pages p = s.pages p
  table : ∀ j, s'.vaAddress j = if i ≤ j ∧ j < i + n then 0 else s.vaAddress j
  heap : s'.heap = s.heap
  mapped : s'.mapped = s.mapped
  frees : s'.paCount = s.paCount

theorem Unmapped.cons {i n : ℕ} {t : Loader} (h : Unmapped (i + 1) n t s')
    (hi : s.vaAddress i ≠ 0)
    (hpages : t.pages = update s.pages ((s.vaAddress i).toNat / 4096) 0)
    (htable : t.vaAddress = update s.vaAddress i 0) (hheap : t.heap = s.heap)
    (hmapped : t.mapped = s.mapped) (hfrees : t.paCount = s.paCount) :
    Unmapped i (n + 1) s s' := by
  -- the entries behind `i` are as before
  have hlater : ∀ j, i + 1 ≤ j → t.vaAddress j = s.vaAddress j := fun j hj => by
    rw [htable, update_of_ne (by omega)]
  refine ⟨fun j hj1 hj2 hne => ?_, fun p hp => ?_, fun j => ?_, h.heap.trans hheap,
    h.mapped.trans hmapped, h.frees.trans hfrees⟩
  · by_cases hagain : ∃ k, i + 1 ≤ k ∧ k < i + 1 + n ∧ s.vaAddress k ≠ 0 ∧
        (s.vaAddress k).toNat / 4096 = (s.vaAddress j).toNat / 4096
    · obtain ⟨k, hk1, hk2, hk, hpage⟩ := hagain
      have hzero := h.cleared k hk1 hk2 (by rwa [hlater k hk1])
      rwa [hlater k hk1, hpage] at hzero
    · obtain rfl : j = i := by
        by_contra hji
        exact hagain ⟨j, by omega, by omega, hne, rfl⟩
      rw [h.other _ fun k hk1 hk2 hk hpage => ?_, hpages, update_self]
      rw [hlater k hk1] at hk hpage
      exact hagain ⟨k, hk1, hk2, hk, hpage⟩
  · rw [h.other p fun k hk1 hk2 hk => ?_, hpages, update_of_ne (hp i (by omega) (by omega) hi).symm]
    rw [hlater k hk1] at hk ⊢
    exact hp k (by omega) (by omega) hk
  · rw [h.table, htable]
    by_cases hji : j = i
    · subst hji
      rw [if_neg (by omega), if_pos (by omega), update_self]
    · rw [update_of_ne hji]
      exact if_congr (by omega) rfl rfl

theorem Unmapped.cons_zero {i n : ℕ} (h : Unmapped (i + 1) n s s') (hi : s.vaAddress i = 0) :
    Unmapped i (n + 1) s s' := by
  have hne : ∀ j, s.vaAddress j ≠ 0 → j ≠ i := fun j hj hji => hj (hji ▸ hi)
  refine ⟨fun j hj1 hj2 hj => ?_, fun p hp => ?_, fun j => ?_, h.heap, h.mapped, h.frees⟩
  · have := hne j hj
    exact h.cleared j (by omega) (by omega) hj
  · exact h.other p fun k hk1 hk2 hk => hp k (by omega) (by omega) hk
  · rw [h.table]
    by_cases hji : j = i
    · subst hji
      rw [if_neg (by omega), if_pos (by omega), hi]
    · exact if_congr (by omega) rfl rfl

theorem unmapPages_spec : ∀ {n i : ℕ} {s s' : Loader}, unmapPages n i s = some s' →
    Unmapped i n s s' := by
  intro n
  induction n with
  | zero =>
    intro i s s' hret
    cases hret
    exact ⟨fun j _ _ => by omega, fun p _ => rfl, fun j => by rw [if_neg (by omega)], rfl, rfl, rfl⟩
  | succ n ih =>
    intro i s s' hret
    rw [unmapPages] at hret
    split at hret
    · cases hret
    split at hret
    · next hi =>
      split at hret
      · cases hret
      · exact (ih hret).cons hi rfl rfl rfl rfl rfl
    · next hi => exact (ih hret).cons_zero (not_not.mp hi)

/-! ### One call -/

/-- What a call does, by the way it returns. -/
inductive Ended (fuel : ℕ) (elf : Image) (s s' : Loader) : Prop
  | refused : elf.ident ≠ elfMagic → s' = s.begin → Ended fuel elf s s'
  | stopped : elf.ident = elfMagic → Turns fuel elf elf.phdrs s.begin s' .noMemory →
      Ended fuel elf s s'
  | finished {t u : Loader} : elf.ident = elfMagic → Turns fuel elf elf.phdrs s.begin t .running →
      Unmapped 0 t.vaCount t u → s' = { u with vaCount := 0, paCount := 0 } → Ended fuel elf s s'

theorem ended_of_loadElfExecutable (hp : s.paCount = 0)
    (hret : loadElfExecutable fuel program elf s = some s') : Ended fuel elf s s' := by
  by_cases hmagic : elf.ident = elfMagic
  swap
  · simp only [loadElfExecutable, if_pos hmagic, Option.some.injEq] at hret
    exact .refused hmagic hret.symm
  simp only [loadElfExecutable, hmagic] at hret
  obtain ⟨⟨t, status⟩, hloop, hret⟩ := bind_eq_some_iff.mp hret
  have hturns := turns_of_loadSegments hloop
  split at hret
  · cases hret
  cases status with
  | fault => cases hret
  | noMemory =>
    cases hret
    exact .stopped hmagic hturns
  | running =>
    obtain ⟨u, hunmap, hret⟩ := bind_eq_some_iff.mp hret
    have hu := unmapPages_spec hunmap
    -- nothing is recorded in `pa_address`
    have hzero : u.paCount = 0 := hu.frees.trans (hturns.frees.trans hp)
    rw [hzero] at hret
    exact .finished hmagic hturns ⟨hu.cleared, hu.other, hu.table, hu.heap, hu.mapped, hu.frees⟩
      (some.inj hret).symm

theorem Loaded.forall_mapped {t : Loader} (hl : Loaded gs s t) (hs : s.mapped = []) {P : ℕ → Prop} :
    (∀ x ∈ t.mapped, P x.page) ↔ ∀ g ∈ gs, ∀ p ∈ g.pages, P p := by
  have hmapped := hl.mapped
  rw [hs] at hmapped
  rw [← List.forall_mem_map, hmapped]
  constructor
  · exact fun h g hg p hp => h p (List.mem_flatMap.mpr ⟨g, hg, hp⟩)
  · intro h p hp
    obtain ⟨g, hg, hp⟩ := List.mem_flatMap.mp hp
    exact h g hg p hp

theorem pages_eq_nil_iff : g.pages = [] ↔ g.memsz = 0 := by
  have hzero : g.memsz = 0 ↔ g.memsz.toNat = 0 := by
    rw [← UInt32.toNat_inj]
    rfl
  rw [Phdr.pages, map_eq_nil_iff, range_eq_nil, hzero, Phdr.numPages]
  split <;> omega

/-- The pages after the loop over `va_address`. -/
theorem Unmapped.pages_eq_zero_iff {t u : Loader} {p : ℕ} (hu : Unmapped 0 t.vaCount t u)
    (hl : Loaded gs s t) (hp : ∃ g ∈ gs, p ∈ g.pages) : u.pages p = 0 ↔ Recorded s gs p := by
  constructor
  · intro hzero
    by_contra hnot
    refine hl.fresh p hp ?_
    rw [← hu.other p fun j _ hj hne hpage => hnot ?_, hzero]
    rw [hl.table] at hne hpage
    exact ⟨j, by rw [← hl.count]; omega, hne, hpage⟩
  · rintro ⟨i, hi, hne, rfl⟩
    rw [← hl.table] at hne ⊢
    exact hu.cleared i (Nat.zero_le i) (by rw [hl.count]; omega) hne

theorem Turns.tidy {t : Loader} (hturns : Turns fuel elf elf.phdrs s.begin t status)
    (hb : Ready h₀ ns base) (hn : SameNodes h₀ s.heap) (hst : status ≠ .fault)
    (hz : ∀ g ∈ reached ns s.heap elf.loads, numBlocks g.filesz = 0) :
    Loaded (reached ns s.heap elf.loads) s.begin t ∧
      (∀ q, (t.heap.node q).allocated = (s.heap.node q).allocated) ∧
      (status = .running ↔ reached ns s.heap elf.loads = elf.loads) :=
  ((hturns.blocks hb hn hst).resolve_right fun hc => hc.1 hz).2

theorem Turns.released_iff {t : Loader} (hturns : Turns fuel elf elf.phdrs s.begin t status)
    (hb : Ready h₀ ns base) (hn : SameNodes h₀ s.heap) (hmagic : elf.ident = elfMagic)
    (hst : status ≠ .fault) (hheap : s'.heap = t.heap)
    (hpages : Loaded (reached ns s.heap elf.loads) s.begin t →
      (status = .running ↔ reached ns s.heap elf.loads = elf.loads) →
      ((∀ x ∈ s'.mapped, s'.pages x.page = 0) ↔ if reached ns s.heap elf.loads = elf.loads then
        ∀ g ∈ elf.loads, ∀ p ∈ g.pages, Recorded s elf.loads p
        else ∀ g ∈ reached ns s.heap elf.loads, g.memsz = 0)) :
    Released ns s s' ↔ Tidy ns elf s := by
  rcases hturns.blocks hb hn hst with ⟨hz, hl, hmarks, hrun⟩ | ⟨hz, q, hq, hfree, halloc⟩
  · have hsame : ∀ q ∈ ns, (s'.heap.node q).allocated = (s.heap.node q).allocated := fun q _ => by
      rw [hheap]
      exact hmarks q
    rw [Released, and_iff_left hsame, hpages hl hrun]
    exact ⟨fun h _ => ⟨hz, h⟩, fun ht => (ht hmagic).2⟩
  · -- a block that was taken is not given back
    refine iff_of_false (fun hr => ?_) fun ht => hz (ht hmagic).1
    have hsame := hr.2 q hq
    rw [hheap, halloc] at hsame
    exact absurd (hsame.trans hfree) (by decide)

/-- **One call leaves nothing if and only if the image is tidy.** -/
theorem released_iff (hb : Ready h₀ ns base) (hn : SameNodes h₀ s.heap) (hp : s.paCount = 0)
    (hret : loadElfExecutable fuel program elf s = some s') :
    Released ns s s' ↔ Tidy ns elf s := by
  cases ended_of_loadElfExecutable hp hret with
  | refused hmagic heq =>
    subst heq
    exact ⟨fun _ hm => absurd hm hmagic, fun _ => ⟨fun x hx => (nomatch hx), fun q _ => rfl⟩⟩
  | stopped hmagic hturns =>
    -- the pages of the segments in front of the one without a block stay
    refine hturns.released_iff hb hn hmagic (by decide) rfl fun hl hrun => ?_
    rw [if_neg fun hall => (nomatch hrun.mpr hall)]
    refine (hl.forall_mapped rfl (P := fun p => s'.pages p = 0)).trans ?_
    refine forall₂_congr fun g hg => ?_
    rw [← pages_eq_nil_iff, eq_nil_iff_forall_not_mem]
    exact forall₂_congr fun p hp => iff_of_false (hl.fresh p ⟨g, hg, hp⟩) id
  | @finished t u hmagic hturns hu heq =>
    subst heq
    refine hturns.released_iff hb hn hmagic (by decide) hu.heap fun hl hrun => ?_
    have hall := hrun.mp rfl
    rw [hall] at hl
    rw [if_pos hall]
    rw [hu.mapped]
    refine (hl.forall_mapped rfl (P := fun p => u.pages p = 0)).trans ?_
    refine forall₂_congr fun g hg => forall₂_congr fun p hp => ?_
    have hpage : u.pages p = 0 ↔ Recorded s.begin elf.loads p :=
      hu.pages_eq_zero_iff hl ⟨g, hg, hp⟩
    exact hpage

/-! ### Calls one after the other -/

theorem call_keeps (hb : Ready h₀ ns base) (hn : SameNodes h₀ s.heap) (hp : s.paCount = 0)
    (hret : loadElfExecutable fuel program elf s = some s') :
    SameNodes h₀ s'.heap ∧ s'.paCount = 0 := by
  cases ended_of_loadElfExecutable hp hret with
  | refused _ heq =>
    subst heq
    exact ⟨hn, hp⟩
  | stopped _ hturns => exact ⟨(hturns.keeps hb hn).1, hturns.frees.trans hp⟩
  | finished _ hturns hu heq =>
    subst heq
    exact ⟨hu.heap ▸ (hturns.keeps hb hn).1, rfl⟩

/-- There is nothing in `va_address`. -/
structure Idle (s : Loader) : Prop where
  count : s.vaCount = 0
  table : ∀ i, s.vaAddress i = 0

/-- An entry of `va_address` is one that was there, or the address of a page. -/
theorem recordedAt_ne_zero {t : ℕ → UInt32} {i : ℕ} (h : recordedAt t gs i ≠ 0) :
    t i ≠ 0 ∨ ∃ g ∈ gs, i < g.numPages ∧ recordedAt t gs i = g.vaddr + 4096 * UInt32.ofNat i := by
  unfold recordedAt at h ⊢
  cases hlast : (gs.filter fun g => i ≤ g.numPages).getLast? with
  | none =>
    rw [hlast] at h
    exact .inl h
  | some g =>
    rw [hlast] at h
    have hg := (mem_filter.mp (mem_of_getLast? hlast)).1
    by_cases hi : i < g.numPages
    · exact .inr ⟨g, hg, hi, if_pos hi⟩
    · exact absurd (if_neg hi) h

theorem numPages_le_sum (hg : g ∈ gs) : g.numPages ≤ (gs.map Phdr.numPages).sum :=
  single_le_sum (fun _ _ => Nat.zero_le _) _ (mem_map_of_mem hg)

theorem Loaded.exists_page {t : Loader} (hl : Loaded gs s t) (hi : Idle s) {j : ℕ}
    (hj : t.vaAddress j ≠ 0) :
    ∃ g ∈ gs, j < g.numPages ∧ t.vaAddress j = g.vaddr + 4096 * UInt32.ofNat j := by
  rw [hl.table] at hj ⊢
  exact (recordedAt_ne_zero hj).resolve_left fun hne => hne (hi.table j)

theorem Loaded.restores {t : Loader} (hl : Loaded gs s t) (hi : Idle s)
    (hempty : ∀ g ∈ gs, g.memsz = 0) : Idle t ∧ t.pages = s.pages := by
  have hnone : ∀ g ∈ gs, g.numPages = 0 := fun g hg => by
    simp [Phdr.numPages, hempty g hg]
  refine ⟨⟨?_, fun j => ?_⟩, funext fun p => hl.other p ?_⟩
  · have hsum : (gs.map Phdr.numPages).sum = 0 := sum_eq_zero fun n hn => by
      obtain ⟨g, hg, rfl⟩ := mem_map.mp hn
      exact hnone g hg
    rw [hl.count, hsum]
    exact hi.count
  · by_contra hj
    obtain ⟨g, hg, hlt, -⟩ := hl.exists_page hi hj
    rw [hnone g hg] at hlt
    omega
  · rintro ⟨g, hg, hpg⟩
    rw [pages_eq_nil_iff.mpr (hempty g hg)] at hpg
    cases hpg

/-- The loop over `va_address` undoes what the segments did, if all their pages are new and
recorded. -/
theorem Unmapped.restores {t u : Loader} (hu : Unmapped 0 t.vaCount t u) (hl : Loaded gs s t)
    (hi : Idle s) (hfree : ∀ g ∈ gs, ∀ p ∈ g.pages, s.pages p = 0)
    (hrec : ∀ g ∈ gs, ∀ p ∈ g.pages, Recorded s gs p) :
    (∀ j, u.vaAddress j = 0) ∧ u.pages = s.pages := by
  refine ⟨fun j => ?_, funext fun p => ?_⟩
  · rw [hu.table]
    split
    · rfl
    · next hj =>
      by_contra hne
      obtain ⟨g, hg, hlt, -⟩ := hl.exists_page hi hne
      have := numPages_le_sum hg
      rw [hl.count] at hj
      omega
  · by_cases hp : ∃ g ∈ gs, p ∈ g.pages
    · obtain ⟨g, hg, hpg⟩ := hp
      rw [hfree g hg p hpg]
      exact (hu.pages_eq_zero_iff hl ⟨g, hg, hpg⟩).mpr (hrec g hg p hpg)
    · refine Eq.trans (hu.other p fun j _ _ hne hpage => hp ?_) (hl.other p hp)
      obtain ⟨g, hg, hlt, hj⟩ := hl.exists_page hi hne
      exact ⟨g, hg, mem_pages.mpr ⟨j, hlt, hj ▸ hpage⟩⟩

theorem call_restores (hb : Ready h₀ ns base)
    (hn : SameNodes h₀ s.heap) (hp : s.paCount = 0) (hi : Idle s) (ht : Tidy ns elf s)
    (hfree : ∀ g ∈ elf.loads, ∀ p ∈ g.pages, s.pages p = 0)
    (hret : loadElfExecutable fuel program elf s = some s') :
    Idle s' ∧ s'.pages = s.pages ∧
      ∀ q, (s'.heap.node q).allocated = (s.heap.node q).allocated := by
  have hbegin : Idle s.begin := ⟨hi.count, hi.table⟩
  cases ended_of_loadElfExecutable hp hret with
  | refused _ heq =>
    subst heq
    exact ⟨hbegin, rfl, fun q => rfl⟩
  | stopped hmagic hturns =>
    obtain ⟨hz, hpages⟩ := ht hmagic
    obtain ⟨hl, hmarks, hrun⟩ := hturns.tidy hb hn (by decide) hz
    rw [if_neg fun hall => (nomatch hrun.mpr hall)] at hpages
    obtain ⟨hidle, heq⟩ := hl.restores hbegin hpages
    exact ⟨hidle, heq, hmarks⟩
  | finished hmagic hturns hu heq =>
    subst heq
    obtain ⟨hz, hpages⟩ := ht hmagic
    obtain ⟨hl, hmarks, hrun⟩ := hturns.tidy hb hn (by decide) hz
    have hall := hrun.mp rfl
    rw [if_pos hall] at hpages
    obtain ⟨htable, heq⟩ := hu.restores (hall ▸ hl) hbegin hfree hpages
    exact ⟨⟨rfl, htable⟩, heq, fun q => hu.heap ▸ hmarks q⟩

end

/-- A call, with the states before and after it. -/
structure Call where
  pre : Loader
  elf : Image
  post : Loader

/-- Calls one after the other, all of which return. -/
inductive History (s₀ : Loader) : List Call → Loader → Prop
  | start : History s₀ [] s₀
  | call {cs : List Call} {s s' : Loader} {elf : Image} {program : Program} :
      History s₀ cs s → Returns (loadElfExecutable · program elf s) s' →
      History s₀ (cs ++ [⟨s, elf, s'⟩]) s'

section

variable {ns : List NodePtr} {base : List Allocation} {s₀ s : Loader} {cs : List Call}

theorem History.keeps (h : History s₀ cs s) (hb : Ready s₀.heap ns base) (hp : s₀.paCount = 0) :
    SameNodes s₀.heap s.heap ∧ s.paCount = 0 := by
  induction h with
  | start => exact ⟨SameNodes.refl _, hp⟩
  | call _ hret ih =>
    obtain ⟨fuel, hret⟩ := hret
    exact call_keeps hb ih.1 ih.2 hret

theorem History.restores (h : History s₀ cs s) (hb : Ready s₀.heap ns base) (hp : s₀.paCount = 0)
    (hi : Idle s₀) (hfree : ∀ c ∈ cs, ∀ g ∈ c.elf.loads, ∀ p ∈ g.pages, s₀.pages p = 0)
    (ht : ∀ c ∈ cs, Tidy ns c.elf c.pre) :
    (Idle s ∧ s.pages = s₀.pages ∧
      ∀ q, (s.heap.node q).allocated = (s₀.heap.node q).allocated) ∧
    ∀ c ∈ cs, c.post.pages = s₀.pages ∧
      ∀ q, (c.post.heap.node q).allocated = (s₀.heap.node q).allocated := by
  induction h with
  | start => exact ⟨⟨hi, rfl, fun q => rfl⟩, fun c hc => (nomatch hc)⟩
  | call hrun hret ih =>
    rw [forall_mem_append, forall_mem_singleton] at hfree ht
    obtain ⟨⟨hidle, hpages, hmarks⟩, hall⟩ := ih hfree.1 ht.1
    obtain ⟨hn, hp'⟩ := hrun.keeps hb hp
    obtain ⟨fuel, hret⟩ := hret
    obtain ⟨hidle', hpages', hmarks'⟩ := call_restores hb hn hp' hidle ht.2
      (by rw [hpages]; exact hfree.2) hret
    have hpost := hpages'.trans hpages
    have hmarks'' := fun q => (hmarks' q).trans (hmarks q)
    rw [forall_mem_append, forall_mem_singleton]
    exact ⟨⟨hidle', hpost, hmarks''⟩, hall, hpost, hmarks''⟩

/-- **Nothing is left by any call of a run if and only if every image is tidy**: then the page
tables and the heap are what they were, if no page was mapped before. -/
theorem history_released_iff (hb : Ready s₀.heap ns base) (hp : s₀.paCount = 0)
    (h : History s₀ cs s) :
    ((∀ c ∈ cs, Released ns c.pre c.post) ↔ ∀ c ∈ cs, Tidy ns c.elf c.pre) ∧
      (Idle s₀ → (∀ c ∈ cs, ∀ g ∈ c.elf.loads, ∀ p ∈ g.pages, s₀.pages p = 0) →
        (∀ c ∈ cs, Tidy ns c.elf c.pre) → ∀ c ∈ cs, c.post.pages = s₀.pages ∧
          ∀ q, (c.post.heap.node q).allocated = (s₀.heap.node q).allocated) := by
  refine ⟨?_, fun hi hfree ht => (h.restores hb hp hi hfree ht).2⟩
  induction h with
  | start => exact iff_of_true (fun c hc => (nomatch hc)) fun c hc => (nomatch hc)
  | call hrun hret ih =>
    obtain ⟨hn, hp'⟩ := hrun.keeps hb hp
    obtain ⟨fuel, hret⟩ := hret
    rw [forall_mem_append, forall_mem_append, forall_mem_singleton,
      forall_mem_singleton, ih, released_iff hb hn hp' hret]

end

/-! ### A page of zeros, and a segment without a block -/

theorem storeBytes_present {pages : ℕ → UInt32} (f : ℕ → UInt8) :
    ∀ (n k : ℕ) (va : UInt32) (m : ℕ → UInt8), va.toNat + n ≤ 2 ^ 32 →
      (∀ a, va.toNat ≤ a → a < va.toNat + n → present (pages (a / 4096)) = true) →
      (storeBytes pages f n k va m).2 = true := by
  intro n
  induction n with
  | zero => exact fun _ _ _ _ _ => rfl
  | succ n ih =>
    intro k va m hspace hpresent
    have hnext : (va + 1).toNat = (va.toNat + 1) % 2 ^ 32 := UInt32.toNat_add va 1
    rw [storeBytes, if_pos (hpresent va.toNat (by omega) (by omega))]
    exact ih (k + 1) (va + 1) _ (by omega) fun a ha1 ha2 => hpresent a (by omega) (by omega)

theorem returns_onePage {fuel : ℕ} {program : Program} {elf : Image} {g : Phdr}
    {s t : Loader} {h : Heap} {p : UInt32} (hmagic : elf.ident = elfMagic) (hg : elf.phdrs = [g])
    (htype : g.type = ptLoad) (hmalloc : kmalloc fuel s.heap g.filesz = some (h, p)) (hp : p ≠ 0)
    (ht : mapSegment { s with mapped := [] } h g p = t)
    (hover : t.overrun = false) (hone : t.vaCount = 1) (hnone : t.paCount = 0)
    (hfill : (fillSegment elf g t.pages t.mem).2 = true)
    (hclear : ∀ m, (storeBytes t.pages (fun _ => 0) 4096 0 (t.vaAddress 0) m).2 = true) :
    ∃ s', loadElfExecutable fuel program elf s = some s' := by
  obtain ⟨m, hm⟩ : ∃ m, fillSegment elf g t.pages t.mem = (m, true) := ⟨_, Prod.ext rfl hfill⟩
  have hseg : loadSegment fuel elf g s.begin = some ({ t with mem := m }, .running) := by
    refine map_eq_some_iff.mpr ⟨(h, p), hmalloc, ?_⟩
    simp [if_neg hp, Loader.begin, ht, hm]
  have hret : loadElfExecutable fuel program elf s =
      (unmapPages 1 0 { t with mem := program m }).bind fun u =>
        (freeBlocks fuel u.paCount 0 { u with vaCount := 0 }).map fun u =>
          { u with paCount := 0 } := by
    simp only [loadElfExecutable, hmagic, ne_eq, not_true_eq_false, if_false, hg,
      loadSegments_singleton htype, hseg, bind_some, hover, Bool.false_eq_true, hone]
  rw [hret, unmapPages, if_neg (by decide)]
  split
  · next hne =>
    obtain ⟨m', hm'⟩ : ∃ m', storeBytes t.pages (fun _ => 0) 4096 0 (t.vaAddress 0) (program m) =
        (m', true) := ⟨_, Prod.ext rfl (hclear _)⟩
    simp only [hm', hnone]
    exact ⟨_, rfl⟩
  · simp only [hnone]
    exact ⟨_, rfl⟩

/-- An image with a page that is not in the file. -/
def zeroPage : Image where
  ident := elfMagic
  phdrs := [⟨ptLoad, 0, 0x8048000, 0, 4096⟩]
  bytes := fun _ => 0

/-- An image with a byte, and with a segment that is larger than the heap. -/
def tooLarge : Image where
  ident := elfMagic
  phdrs := [⟨ptLoad, 0, 0x8048000, 1, 1⟩, ⟨ptLoad, 0, 0x8049000, 0x10000, 0x10000⟩]
  bytes := fun _ => 1

theorem returns_zeroPage : ∃ s', loadElfExecutable 1 id zeroPage (idle pageHeap) = some s' := by
  obtain ⟨t, ht⟩ : ∃ t, mapSegment { idle pageHeap with mapped := [] }
      ((kmalloc 1 pageHeap 0).getD (pageHeap, 0)).1 ⟨ptLoad, 0, 0x8048000, 0, 4096⟩ 0x1000 = t :=
    ⟨_, rfl⟩
  have hpresent : present (t.pages 0x8048) = true := by subst ht; decide
  have hentry : t.vaAddress 0 = 0x8048000 := by subst ht; decide
  have hpage : ∀ a, (0x8048000 : UInt32).toNat ≤ a → a < (0x8048000 : UInt32).toNat + 4096 →
      present (t.pages (a / 4096)) = true := by
    intro a ha1 ha2
    have hva : (0x8048000 : UInt32).toNat = 0x8048 * 4096 := by decide
    have ha : a / 4096 = 0x8048 := by omega
    rw [ha, hpresent]
  have hwrite : ∀ f m, (storeBytes t.pages f 4096 0 0x8048000 m).2 = true := fun f m =>
    storeBytes_present f 4096 0 0x8048000 m (by decide) hpage
  refine returns_onePage rfl rfl rfl rfl (by decide) ht (by subst ht; decide)
    (by subst ht; decide) (by subst ht; decide) ?_ ?_
  · exact hwrite _ _
  · rw [hentry]
    exact hwrite _

theorem tidy_zeroPage : Tidy pageNodes zeroPage (idle pageHeap) := by
  refine fun _ => ⟨by decide, ?_⟩
  intro g hg p hp
  obtain rfl := mem_singleton.mp hg
  obtain rfl : p = 0x8048 := by
    exact mem_singleton.mp hp
  exact ⟨0, by decide, by decide, by decide⟩

/-- After the call, the page and the heap are what they were. -/
theorem history_released_zeroPage : ∃ s',
    History (idle pageHeap) [⟨idle pageHeap, zeroPage, s'⟩] s' ∧
    Released pageNodes (idle pageHeap) s' ∧
    s'.pages = (idle pageHeap).pages := by
  obtain ⟨s', hret⟩ := returns_zeroPage
  have hb : Ready pageHeap pageNodes [] := Ready.of_reachable initial_pageHeap .start rfl rfl rfl
  have hrun : History (idle pageHeap) [⟨idle pageHeap, zeroPage, s'⟩] s' := .call .start ⟨1, hret⟩
  obtain ⟨hiff, hrestored⟩ := history_released_iff hb rfl hrun
  have htidy : ∀ c ∈ [(⟨idle pageHeap, zeroPage, s'⟩ : Call)], Tidy pageNodes c.elf c.pre :=
    forall_mem_singleton.mpr tidy_zeroPage
  refine ⟨s', hrun, hiff.mpr htidy _ (mem_singleton_self _), ?_⟩
  exact (hrestored ⟨rfl, fun _ => rfl⟩ (fun _ _ _ _ _ _ => rfl) htidy _ (mem_singleton_self _)).1

/-- There is no block for the second segment: a page stays mapped, and a block allocated. -/
theorem not_released_tooLarge : ∃ s', Ready pageHeap pageNodes [] ∧
    Returns (loadElfExecutable · id tooLarge (idle pageHeap)) s' ∧
    s'.pages 0x8048 ≠ 0 ∧ (s'.heap.node 0x118).allocated = true ∧
    ¬Released pageNodes (idle pageHeap) s' := by
  refine ⟨_, Ready.of_reachable initial_pageHeap .start rfl rfl rfl, ⟨2, rfl⟩, by decide,
    by decide, fun hr => ?_⟩
  exact absurd (hr.2 0x118 (by decide)) (by decide)

end AthenX.Elf
