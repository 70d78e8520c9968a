import AthenX.KHeap.Blocks
import AthenX.KHeap.Contents
import AthenX.Paging.Walker

/-!
# Loading a program

The loop of `load_elf_executable` of `kernel/elf/elf_exe.c` allocates `p_filesz` bytes for each
segment, maps its pages to the block, copies the segment and clears the rest. The pointer to the
block is a `uint32_t *`, so `region += PAGE_SIZE` moves it by four pages, and `map` drops the low
bits of an address.

The page tables are a finite map from pages to entries, and an address of the heap is also its
physical address. A write to a page without a frame ends the run. The offset in the page, which the
function computes and does not use, is left out.
-/

namespace AthenX.Elf

open KHeap Paging List Option Function

/-! ### The source -/

/-- `Elf32_Phdr`: a program header. -/
structure Phdr where
  type : UInt32
  offset : UInt32
  vaddr : UInt32
  filesz : UInt32
  memsz : UInt32
  deriving DecidableEq, Repr

/-- `PT_LOAD`. -/
def ptLoad : UInt32 := 1

/-- The bytes of an image, with the parts of its header that are used. -/
structure Image where
  /-- The first four bytes of `e_ident`. -/
  ident : List UInt8
  /-- The `e_phnum` program headers. -/
  phdrs : List Phdr
  bytes : ℕ → UInt8

/-- A call of `map` for a segment: the heap before and after its allocation, the page and the frame.
-/
structure Mapping where
  before : Heap
  after : Heap
  page : ℕ
  frame : ℕ

/-- The heap, the page tables, physical memory and the variables of the loader. -/
structure Loader where
  heap : Heap
  /-- The entries `current_directory->pages`. -/
  pages : ℕ → UInt32
  mem : ℕ → UInt8
  /-- `va_address` and `va_count`. -/
  vaAddress : ℕ → UInt32
  vaCount : ℕ
  /-- `pa_address` and `pa_count`. -/
  paAddress : ℕ → UInt32
  paCount : ℕ
  /-- Has the loader written or read behind `va_address`? -/
  overrun : Bool
  /-- What has been mapped so far. -/
  mapped : List Mapping

/-- The size of `va_address` and `pa_address`. -/
def maxPages : ℕ := 100

/-- How the loop ends. -/
inductive Status where
  | running
  | noMemory
  | fault
  deriving DecidableEq, Repr

/-- The number of pages of a segment. -/
def Phdr.numPages (g : Phdr) : ℕ :=
  g.memsz.toNat / 4096 + if g.memsz.toNat % 4096 ≠ 0 then 1 else 0

/-- The entry that `map` writes. -/
def entryFor (region : UInt32) : UInt32 := pteOf region (pageWrite ||| pagePresent)

/-- The body of the loop over the pages. -/
def Loader.mapPage (s : Loader) (before after : Heap) (i : ℕ) (va region : UInt32) : Loader :=
  { s with
    pages := Function.update s.pages (va.toNat / 4096) (entryFor region)
    vaAddress := Function.update s.vaAddress i va
    vaCount := s.vaCount + 1
    overrun := s.overrun || maxPages ≤ i
    mapped := s.mapped ++ [⟨before, after, va.toNat / 4096, frameOf (entryFor region)⟩] }

/-- The loop over the pages from page `i` on, with `n` iterations to go. -/
def mapPages (before after : Heap) : ℕ → ℕ → UInt32 → UInt32 → Loader → Loader
  | 0, _, _, _, s => s
  | n + 1, i, va, region, s =>
      -- `PAGE_SIZE` words
      mapPages before after n (i + 1) (va + 4096) (region + 4 * 4096)
        (s.mapPage before after i va region)

/-- Write `n` bytes from an address on. Were all of them written? -/
def storeBytes (pages : ℕ → UInt32) (f : ℕ → UInt8) :
    ℕ → ℕ → UInt32 → (ℕ → UInt8) → (ℕ → UInt8) × Bool
  | 0, _, _, m => (m, true)
  | n + 1, k, va, m =>
      if present (pages (va.toNat / 4096)) then
        storeBytes pages f n (k + 1) (va + 1) (Function.update m
          (frameOf (pages (va.toNat / 4096)) * 4096 + va.toNat % 4096) (f k))
      else (m, false)

/-- The `memcpy` and the `memset` for a segment. The second length is unsigned. -/
def fillSegment (elf : Image) (g : Phdr) (pages : ℕ → UInt32) (m : ℕ → UInt8) :
    (ℕ → UInt8) × Bool :=
  match storeBytes pages (fun k => elf.bytes (g.offset.toNat + k)) g.filesz.toNat 0 g.vaddr m with
  | (m, true) =>
      storeBytes pages (fun _ => 0) (g.memsz - g.filesz).toNat 0 (g.vaddr + g.filesz) m
  | (m, false) => (m, false)

/-- The pages of a segment at `region`, and the end of its entries in `va_address`. -/
def mapSegment (s : Loader) (h : Heap) (g : Phdr) (region : UInt32) : Loader :=
  let t := mapPages s.heap h g.numPages 0 g.vaddr region { s with heap := h }
  { t with
    vaAddress := Function.update t.vaAddress g.numPages 0
    overrun := t.overrun || maxPages ≤ g.numPages }

/-- The body of the loop, for a segment that is loaded. -/
def loadSegment (fuel : ℕ) (elf : Image) (g : Phdr) (s : Loader) : Option (Loader × Status) :=
  (kmalloc fuel s.heap g.filesz).map fun (h, region) =>
    if region = 0 then ({ s with heap := h }, .noMemory)
    else
      let t := mapSegment s h g region
      let (m, ok) := fillSegment elf g t.pages t.mem
      ({ t with mem := m }, if ok then .running else .fault)

/-- The loop over the program headers. -/
def loadSegments (fuel : ℕ) (elf : Image) : List Phdr → Loader → Option (Loader × Status)
  | [], s => some (s, .running)
  | g :: gs, s =>
      if g.type = ptLoad then
        (loadSegment fuel elf g s).bind fun (s, status) =>
          if status = .running then loadSegments fuel elf gs s else some (s, status)
      else loadSegments fuel elf gs s

/-! ### The property and the condition -/

/-- The frame lies in the block that was allocated for the segment. -/
def Mapping.Inside (ns : List NodePtr) (x : Mapping) : Prop :=
  ∀ b, x.frame * 4096 ≤ b → b < x.frame * 4096 + 4096 → Gained x.before x.after ns b

/-- The frames mapped lie in the blocks allocated for them, and older blocks are unchanged. -/
def Backed (ns : List NodePtr) (s s' : Loader) : Prop :=
  (∀ x ∈ s'.mapped, x.Inside ns) ∧ ∀ b, Held s.heap ns b → s'.mem b = s.mem b

/-- The segments whose frames lie in their blocks: there is no block, or no page, or one page, four
blocks marked, and the first four free ones start a page. -/
def Fitted (ns : List NodePtr) (h : Heap) (g : Phdr) : Prop :=
  ∀ q, blockFor h ns g.filesz = some q →
    g.memsz = 0 ∨ g.memsz.toNat ≤ 4096 ∧ 3072 < g.filesz.toNat ∧ (h.node q).addr.toNat % 4096 = 0

/-- Every segment is fitted in the state in which the loop comes to it. -/
def Fits (ns : List NodePtr) (elf : Image) : List Phdr → Loader → Prop
  | [], _ => True
  | g :: gs, s =>
      if g.type = ptLoad then
        Fitted ns s.heap g ∧
          ∀ t, Returns (loadSegment · elf g s) (t, .running) → Fits ns elf gs t
      else Fits ns elf gs s

/-- The page of an address, if any, is not mapped to an allocated block. -/
def Clear (ns : List NodePtr) (h : Heap) (pages : ℕ → UInt32) (a : ℕ) : Prop :=
  present (pages (a / 4096)) = true → ∀ b, b / 4096 = frameOf (pages (a / 4096)) → ¬Held h ns b

/-- A well-formed image, whose segments are outside of the kernel and of the heap. -/
structure WellFormed (ns : List NodePtr) (elf : Image) (s : Loader) : Prop where
  size : ∀ g ∈ elf.phdrs, g.type = ptLoad → g.filesz.toNat ≤ g.memsz.toNat
  space : ∀ g ∈ elf.phdrs, g.type = ptLoad → g.vaddr.toNat + g.memsz.toNat ≤ 2 ^ 32
  apart : ∀ g ∈ elf.phdrs, g.type = ptLoad → ∀ a, g.vaddr.toNat ≤ a →
    a < g.vaddr.toNat + g.memsz.toNat → Clear ns s.heap s.pages a

/-! ### The page tables -/

variable {p va : UInt32} {b fuel : ℕ}

theorem frameOf_entryFor (region : UInt32) : frameOf (entryFor region) = region.toNat / 4096 := by
  rw [entryFor, (entry_pteOf region (by decide)).2, frameOf_eq]

/-! ### The loop over the pages -/

section

variable {before after h : Heap} {s s' : Loader} {g : Phdr} {region : UInt32} {n i k : ℕ}
  {elf : Image}

/-- The entries after the loop. -/
def editPages : ℕ → UInt32 → UInt32 → (ℕ → UInt32) → ℕ → UInt32
  | 0, _, _, pages => pages
  | n + 1, va, region, pages =>
      editPages n (va + 4096) (region + 4 * 4096)
        (Function.update pages (va.toNat / 4096) (entryFor region))

theorem mapPages_same (before after : Heap) : ∀ (n i : ℕ) (va region : UInt32) (s : Loader),
    (mapPages before after n i va region s).mem = s.mem ∧
      (mapPages before after n i va region s).heap = s.heap ∧
      (mapPages before after n i va region s).paCount = s.paCount ∧
      (mapPages before after n i va region s).pages = editPages n va region s.pages := by
  intro n
  induction n with
  | zero => exact fun _ _ _ _ => ⟨rfl, rfl, rfl, rfl⟩
  | succ n ih => exact fun i va region s => ih _ _ _ _

theorem add_mul_succ (x c : UInt32) (k : ℕ) :
    x + c + c * UInt32.ofNat k = x + c * UInt32.ofNat (k + 1) := by
  have hone : UInt32.ofNat 1 = 1 := rfl
  rw [UInt32.ofNat_add, hone, UInt32.mul_add, UInt32.mul_one, UInt32.add_assoc, UInt32.add_comm c]

/-- The mapping of page `k` of a segment. -/
def mappingAt (before after : Heap) (va region : UInt32) (k : ℕ) : Mapping :=
  ⟨before, after, (va + 4096 * UInt32.ofNat k).toNat / 4096,
    frameOf (entryFor (region + 4 * 4096 * UInt32.ofNat k))⟩

theorem mapped_mapPages (before after : Heap) : ∀ (n i : ℕ) (va region : UInt32) (s : Loader),
    (mapPages before after n i va region s).mapped =
      s.mapped ++ (List.range n).map (mappingAt before after va region) := by
  intro n
  induction n with
  | zero => exact fun _ _ _ _ => (append_nil _).symm
  | succ n ih =>
    intro i va region s
    have hzero : UInt32.ofNat 0 = 0 := rfl
    have hfirst : mappingAt before after va region 0 =
        ⟨before, after, va.toNat / 4096, frameOf (entryFor region)⟩ := by
      simp only [mappingAt, hzero, UInt32.mul_zero, UInt32.add_zero]
    have hrest : ∀ k, mappingAt before after (va + 4096) (region + 4 * 4096) k =
        mappingAt before after va region (k + 1) := fun k => by
      simp [mappingAt, add_mul_succ]
    rw [mapPages, ih, List.range_succ_eq_map, List.map_cons, List.map_map, hfirst,
      map_congr_left fun k _ => hrest k]
    simp only [Loader.mapPage, append_assoc]
    rfl

/-! ### The frames of one segment -/

theorem frame_mappingAt (before after : Heap) (va region : UInt32) (k : ℕ) :
    (mappingAt before after va region k).frame = (region.toNat + 16384 * k) % 2 ^ 32 / 4096 := by
  have hconst : (4 * 4096 : UInt32).toNat = 16384 := rfl
  simp only [mappingAt, frameOf_entryFor, UInt32.toNat_add, UInt32.toNat_mul, hconst,
    UInt32.toNat_ofNat']
  congr 1
  omega

/-- **The frames of a segment lie in its block** iff it has none, or one that is the whole block. -/
theorem inside_iff {ns : List NodePtr} {base : List Allocation} (hb : Ready before ns base)
    (hn : SameNodes before h) (hg : g.filesz.toNat ≤ g.memsz.toNat)
    (hret : Returns (kmalloc · h g.filesz) (after, region)) (hr : region ≠ 0) :
    (∀ k < g.numPages, (mappingAt h after g.vaddr region k).Inside ns) ↔
      (g.memsz = 0 ∨
        g.memsz.toNat ≤ 4096 ∧ 3072 < g.filesz.toNat ∧ region.toNat % 4096 = 0) := by
  obtain ⟨hactive, hunlocked, hchain, hspaced⟩ := hb.same hn
  have hgained : ∀ b, Gained h after ns b ↔
      region.toNat ≤ b ∧ b < region.toNat + 1024 * numBlocks g.filesz := fun b =>
    gained_iff hactive hunlocked hchain hspaced hret hr
  have hlt := region.toNat_lt
  have hle := numBlocks_le g.filesz
  have hmax := numBlocks_lt g.filesz
  have hzero : g.memsz = 0 ↔ g.memsz.toNat = 0 := by
    rw [← UInt32.toNat_inj]
    rfl
  simp only [Mapping.Inside, frame_mappingAt]
  simp only [mappingAt, hgained, hzero, Phdr.numPages]
  constructor
  · intro h
    by_cases hempty : g.memsz.toNat = 0
    · exact .inl hempty
    · have hfirst := h 0 (by split <;> omega)
      have hlow := hfirst (region.toNat / 4096 * 4096) (by omega) (by omega)
      have hhigh := hfirst (region.toNat / 4096 * 4096 + 4095) (by omega) (by omega)
      have hone : g.memsz.toNat ≤ 4096 := by
        by_contra hmore
        -- a page behind the end of the block: there are four pages from one to the next
        obtain ⟨k, hk⟩ : ∃ k, k = (numBlocks g.filesz - 4) / 16 + 1 := ⟨_, rfl⟩
        have hpage := h k (by split <;> omega)
        have hend := hpage ((region.toNat + 16384 * k) % 2 ^ 32 / 4096 * 4096 + 4095) (by omega)
        omega
      exact .inr ⟨hone, by omega, by omega⟩
  · rintro (hempty | ⟨hone, hfile, halign⟩) k hk b hb1 hb2
    · rw [if_neg (by omega)] at hk
      omega
    · have hfits : numBlocks g.filesz = (g.filesz.toNat + 1023) / 1024 :=
        numBlocks_of_fits (by omega) (by omega)
      have hk0 : k = 0 := by split at hk <;> omega
      omega

theorem status_ne_noMemory (ok : Bool) : (if ok then Status.running else .fault) ≠ .noMemory := by
  cases ok <;> decide

theorem loadSegment_spec {status : Status} (hret : loadSegment fuel elf g s = some (s', status)) :
    ∃ p, Returns (kmalloc · s.heap g.filesz) (s'.heap, p) ∧
      (p = 0 ∧ status = .noMemory ∧ s'.mapped = s.mapped ∧ s'.pages = s.pages ∧ s'.mem = s.mem ∨
        p ≠ 0 ∧ status ≠ .noMemory ∧ s'.mapped = s.mapped ++
            (List.range g.numPages).map (mappingAt s.heap s'.heap g.vaddr p) ∧
          s'.pages = editPages g.numPages g.vaddr p s.pages ∧
          s'.mem = (fillSegment elf g s'.pages s.mem).1) := by
  obtain ⟨⟨h, p⟩, hmalloc, he⟩ := map_eq_some_iff.mp hret
  by_cases hp : p = 0
  · simp only [hp] at he
    obtain ⟨rfl, rfl⟩ := he
    exact ⟨0, ⟨fuel, hp ▸ hmalloc⟩, .inl ⟨rfl, rfl, rfl, rfl, rfl⟩⟩
  · simp only [hp, mapSegment] at he
    obtain ⟨rfl, rfl⟩ := he
    obtain ⟨hmem, hheap, -, hpages⟩ := mapPages_same s.heap h g.numPages 0 g.vaddr p
      { s with heap := h }
    have hmapped := mapped_mapPages s.heap h g.numPages 0 g.vaddr p { s with heap := h }
    refine ⟨p, ?_, .inr ⟨hp, ?_, ?_, hpages, ?_⟩⟩
    · simp only [hheap]
      exact ⟨fuel, hmalloc⟩
    · exact status_ne_noMemory _
    · simp only [hheap]
      exact hmapped
    · simp [hmem]

theorem loadSegment_unique {fuel' : ℕ} {x y : Loader × Status}
    (hx : loadSegment fuel elf g s = some x) (hy : loadSegment fuel' elf g s = some y) : x = y := by
  obtain ⟨u, hu, rfl⟩ := map_eq_some_iff.mp hx
  obtain ⟨v, hv, rfl⟩ := map_eq_some_iff.mp hy
  have huv := (kmalloc_mono hu (Nat.le_max_left fuel fuel')).symm.trans
    (kmalloc_mono hv (Nat.le_max_right fuel fuel'))
  rw [some.inj huv]

end

/-! ### The loop over the segments -/

/-- The runs of the loop: it skips a segment, stops after one, or goes on after one. -/
inductive Turns (fuel : ℕ) (elf : Image) : List Phdr → Loader → Loader → Status → Prop
  | done {s : Loader} : Turns fuel elf [] s s .running
  | skip {g : Phdr} {gs : List Phdr} {s s' : Loader} {status : Status} :
      g.type ≠ ptLoad → Turns fuel elf gs s s' status → Turns fuel elf (g :: gs) s s' status
  | stop {g : Phdr} {gs : List Phdr} {s s' : Loader} {status : Status} :
      g.type = ptLoad → loadSegment fuel elf g s = some (s', status) → status ≠ .running →
      Turns fuel elf (g :: gs) s s' status
  | turn {g : Phdr} {gs : List Phdr} {s t s' : Loader} {status : Status} :
      g.type = ptLoad → loadSegment fuel elf g s = some (t, .running) →
      Turns fuel elf gs t s' status → Turns fuel elf (g :: gs) s s' status

theorem turns_of_loadSegments : ∀ {gs : List Phdr} {s s' : Loader}
    {status : Status}, loadSegments fuel elf gs s = some (s', status) →
    Turns fuel elf gs s s' status := by
  intro gs
  induction gs with
  | nil =>
    intro s s' status hret
    cases hret
    exact .done
  | cons g gs ih =>
    intro s s' status hret
    simp only [loadSegments] at hret
    split at hret
    · next htype =>
      obtain ⟨⟨t, st⟩, hseg, hret⟩ := bind_eq_some_iff.mp hret
      split at hret
      · next hrun => exact .turn htype (hrun ▸ hseg) (ih hret)
      · next hstop =>
        cases hret
        exact .stop htype hseg hstop
    · next htype => exact .skip htype (ih hret)

/-! ### The frames of all segments -/

section

variable {ns : List NodePtr} {base : List Allocation} {elf : Image} {s₀ s s' : Loader} {g : Phdr}
  {gs : List Phdr} {status : Status}

/-- The condition, with the pointer that `kmalloc` returns. -/
theorem fitted_iff {h h' : Heap} (hb : Ready s₀.heap ns base)
    (hn : SameNodes s₀.heap h) (hret : Returns (kmalloc · h g.filesz) (h', p)) :
    Fitted ns h g ↔ (p ≠ 0 → g.memsz = 0 ∨
      g.memsz.toNat ≤ 4096 ∧ 3072 < g.filesz.toNat ∧ p.toNat % 4096 = 0) := by
  obtain ⟨hactive, hunlocked, hchain, hspaced⟩ := hb.same hn
  have hp := kmalloc_blockFor hactive hunlocked hchain hret
  cases hq : blockFor h ns g.filesz with
  | none =>
    rw [hq] at hp
    exact ⟨fun _ hne => absurd hp hne, fun _ q hsome => (nomatch hq.symm.trans hsome)⟩
  | some q =>
    rw [hq] at hp
    have hne := addr_blockFor_ne_zero hspaced hq
    rw [hp]
    constructor
    · exact fun hf _ => hf q hq
    · intro hf r hr
      cases hq.symm.trans hr
      exact hf hne

theorem loadSegment_matched (hb : Ready s₀.heap ns base) (hn : SameNodes s₀.heap s.heap)
    (hg : g.filesz.toNat ≤ g.memsz.toNat)
    (hret : loadSegment fuel elf g s = some (s', status)) :
    SameNodes s₀.heap s'.heap ∧ ((∀ x ∈ s'.mapped, x.Inside ns) ↔
      (∀ x ∈ s.mapped, x.Inside ns) ∧ Fitted ns s.heap g) := by
  obtain ⟨p, hmalloc, hcases⟩ := loadSegment_spec hret
  obtain ⟨hactive, hunlocked, hchain, -⟩ := hb.same hn
  refine ⟨hn.trans (kmalloc_spec hactive hunlocked hchain hmalloc).2.1, ?_⟩
  rw [fitted_iff hb hn hmalloc]
  rcases hcases with ⟨rfl, -, hmapped, -⟩ | ⟨hp, -, hmapped, -⟩
  · rw [hmapped]
    exact ⟨fun hall => ⟨hall, fun hne => absurd rfl hne⟩, And.left⟩
  · rw [hmapped, List.forall_mem_append, List.forall_mem_map, ← inside_iff hb hn hg hmalloc hp]
    simp [hp]

theorem Turns.matched (hb : Ready s₀.heap ns base) (hret : Turns fuel elf gs s s' status)
    (hsize : ∀ g ∈ gs, g.type = ptLoad → g.filesz.toNat ≤ g.memsz.toNat)
    (hn : SameNodes s₀.heap s.heap) : (∀ x ∈ s'.mapped, x.Inside ns) ↔
      (∀ x ∈ s.mapped, x.Inside ns) ∧ Fits ns elf gs s := by
  induction hret with
  | done => exact (and_iff_left trivial).symm
  | skip htype _ ih => rw [Fits, if_neg htype, ih (forall_mem_cons.mp hsize).2 hn]
  | stop htype hseg hstop =>
    have hiff := (loadSegment_matched hb hn ((forall_mem_cons.mp hsize).1 htype) hseg).2
    rw [Fits, if_pos htype, hiff, and_iff_left (a := Fitted _ _ _)]
    rintro t ⟨fuel', hrun⟩
    cases loadSegment_unique hseg hrun
    exact absurd rfl hstop
  | turn htype hseg _ ih =>
    obtain ⟨hg, hgs⟩ := forall_mem_cons.mp hsize
    obtain ⟨hn', hiff⟩ := loadSegment_matched hb hn (hg htype) hseg
    rw [Fits, if_pos htype, ih hgs hn', hiff, and_assoc]
    refine and_congr_right fun _ => and_congr_right fun _ => ⟨?_, fun h => h _ ⟨fuel, hseg⟩⟩
    rintro h t ⟨fuel', hrun⟩
    cases loadSegment_unique hseg hrun
    exact h

/-! ### The copies -/

variable {h : Heap} {pages : ℕ → UInt32}

theorem storeBytes_held (f : ℕ → UInt8) (hb : Held h ns b) :
    ∀ (n k : ℕ) (va : UInt32) (m : ℕ → UInt8), va.toNat + n ≤ 2 ^ 32 →
      (∀ a, va.toNat ≤ a → a < va.toNat + n → Clear ns h pages a) →
      (storeBytes pages f n k va m).1 b = m b := by
  intro n
  induction n with
  | zero => exact fun _ _ _ _ _ => rfl
  | succ n ih =>
    intro k va m hspace hclear
    rw [storeBytes]
    split
    · next hpresent =>
      have hnext : (va + 1).toNat = (va.toNat + 1) % 2 ^ 32 := UInt32.toNat_add va 1
      have hne : b ≠ frameOf (pages (va.toNat / 4096)) * 4096 + va.toNat % 4096 := by
        rintro rfl
        exact hclear va.toNat (by omega) (by omega) hpresent _ (by omega) hb
      rw [ih (k + 1) (va + 1) _ (by omega) fun a ha1 ha2 => hclear a (by omega) (by omega),
        update_of_ne hne]
    · rfl

theorem fillSegment_held (hb : Held h ns b) (hsize : g.filesz.toNat ≤ g.memsz.toNat)
    (hspace : g.vaddr.toNat + g.memsz.toNat ≤ 2 ^ 32)
    (hclear : ∀ a, g.vaddr.toNat ≤ a → a < g.vaddr.toNat + g.memsz.toNat → Clear ns h pages a)
    (m : ℕ → UInt8) : (fillSegment elf g pages m).1 b = m b := by
  have hcopy := storeBytes_held (fun k => elf.bytes (g.offset.toNat + k)) hb g.filesz.toNat 0
    g.vaddr m (by omega) fun a ha1 ha2 => hclear a ha1 (by omega)
  have hcount : (g.memsz - g.filesz).toNat = g.memsz.toNat - g.filesz.toNat :=
    UInt32.toNat_sub_of_le _ _ (UInt32.le_iff_toNat_le.mpr hsize)
  have hstart : (g.vaddr + g.filesz).toNat = (g.vaddr.toNat + g.filesz.toNat) % 2 ^ 32 :=
    UInt32.toNat_add _ _
  rw [fillSegment]
  split
  · next m' heq =>
    rw [heq] at hcopy
    rw [storeBytes_held (fun _ => 0) hb _ 0 _ m' (by omega)
      fun a ha1 ha2 => hclear a (by omega) (by omega)]
    exact hcopy
  · next m' heq =>
    rw [heq] at hcopy
    exact hcopy

/-! ### The blocks that were allocated before -/

/-- What holds after each turn, if the segments so far are fitted. -/
structure Kept (ns : List NodePtr) (elf : Image) (s₀ s : Loader) : Prop where
  nodes : SameNodes s₀.heap s.heap
  held : ∀ b, Held s₀.heap ns b → Held s.heap ns b
  mem : ∀ b, Held s₀.heap ns b → s.mem b = s₀.mem b
  apart : ∀ g ∈ elf.phdrs, g.type = ptLoad → ∀ a, g.vaddr.toNat ≤ a →
    a < g.vaddr.toNat + g.memsz.toNat → Clear ns s₀.heap s.pages a

theorem numPages_le_one (hg : g.memsz.toNat ≤ 4096) : g.numPages ≤ 1 := by
  rw [Phdr.numPages]
  split <;> omega

theorem clear_editPages {n a : ℕ} (hn : n ≤ 1) (hclear : Clear ns h pages a)
    (hfree : n = 1 → ∀ b, b / 4096 = p.toNat / 4096 → ¬Held h ns b) :
    Clear ns h (editPages n va p pages) a := by
  rcases Nat.le_one_iff_eq_zero_or_eq_one.mp hn with rfl | rfl
  · exact hclear
  · intro hpresent b hb
    simp only [editPages, update_apply] at hpresent hb
    split at hb
    · rw [frameOf_entryFor] at hb
      exact hfree rfl b hb
    · next hother =>
      rw [if_neg hother] at hpresent
      exact hclear hpresent b hb

theorem loadSegment_kept (hb : Ready s₀.heap ns base) (hw : WellFormed ns elf s₀)
    (hg : g ∈ elf.phdrs) (htype : g.type = ptLoad) (hk : Kept ns elf s₀ s)
    (hret : loadSegment fuel elf g s = some (s', status)) (hf : Fitted ns s.heap g) :
    Kept ns elf s₀ s' := by
  obtain ⟨p, hmalloc, hcases⟩ := loadSegment_spec hret
  have hn := hk.nodes
  obtain ⟨hactive, hunlocked, hchain, hspaced⟩ := hb.same hn
  have hnodes := hn.trans (kmalloc_spec hactive hunlocked hchain hmalloc).2.1
  have hheld : ∀ b, Held s₀.heap ns b → Held s'.heap ns b := fun b hheld =>
    (hk.held b hheld).kmalloc hactive hunlocked hchain hmalloc
  rcases hcases with ⟨-, -, -, hpages, hmem⟩ | ⟨hp, -, -, hpages, hmem⟩
  · refine ⟨hnodes, hheld, fun b hb => ?_, fun g hg ht a ha1 ha2 => ?_⟩
    · rw [hmem, hk.mem b hb]
    · rw [hpages]
      exact hk.apart g hg ht a ha1 ha2
  · have hsize := hw.size g hg htype
    have hfit := (fitted_iff hb hn hmalloc).mp hf hp
    have hone : g.numPages ≤ 1 := numPages_le_one (by
      rcases hfit with hz | ⟨hle, -⟩
      · simp [hz]
      · exact hle)
    -- the frame is the block, none of which was allocated before
    have hfree : g.numPages = 1 → ∀ b, b / 4096 = p.toNat / 4096 → ¬Held s₀.heap ns b := by
      intro hpage b hb hheld
      rcases hfit with hz | ⟨hle, hbig, halign⟩
      · simp [Phdr.numPages, hz] at hpage
      · have hblocks : numBlocks g.filesz = (g.filesz.toNat + 1023) / 1024 :=
          numBlocks_of_fits (by omega) (by omega)
        have hgained := (gained_iff (b := b) hactive hunlocked hchain hspaced hmalloc hp).mpr (by
          rw [blockSize]
          omega)
        exact hgained.not_held hspaced (hk.held b hheld)
    have hclear : ∀ g ∈ elf.phdrs, g.type = ptLoad → ∀ a, g.vaddr.toNat ≤ a →
        a < g.vaddr.toNat + g.memsz.toNat → Clear ns s₀.heap s'.pages a := by
      intro g' hg' ht a ha1 ha2
      rw [hpages]
      exact clear_editPages hone (hk.apart g' hg' ht a ha1 ha2) hfree
    refine ⟨hnodes, hheld, fun b hb => ?_, hclear⟩
    rw [hmem, fillSegment_held hb hsize (hw.space g hg htype) (hclear g hg htype), hk.mem b hb]

theorem Turns.kept (hb : Ready s₀.heap ns base) (hw : WellFormed ns elf s₀)
    (hret : Turns fuel elf gs s s' status) (hgs : gs ⊆ elf.phdrs) (hk : Kept ns elf s₀ s)
    (hf : Fits ns elf gs s) : Kept ns elf s₀ s' := by
  induction hret with
  | done => exact hk
  | skip htype _ ih =>
    rw [Fits, if_neg htype] at hf
    exact ih (cons_subset.mp hgs).2 hk hf
  | stop htype hseg _ =>
    rw [Fits, if_pos htype] at hf
    exact loadSegment_kept hb hw (cons_subset.mp hgs).1 htype hk hseg hf.1
  | turn htype hseg _ ih =>
    obtain ⟨hg, hgs⟩ := cons_subset.mp hgs
    rw [Fits, if_pos htype] at hf
    exact ih hgs (loadSegment_kept hb hw hg htype hk hseg hf.1) (hf.2 _ ⟨fuel, hseg⟩)

/-- **The frames lie in their blocks if and only if every segment is fitted.** If `kmalloc` does not
return for a segment, this is about those in front of it. -/
theorem backed_iff_fits (hb : Ready s.heap ns base) (hw : WellFormed ns elf s)
    (hmapped : s.mapped = []) (hgs : gs <+: elf.phdrs)
    (hret : Returns (loadSegments · elf gs s) (s', status)) :
    Backed ns s s' ↔ Fits ns elf gs s := by
  obtain ⟨fuel, hret⟩ := hret
  have hturns := turns_of_loadSegments hret
  have hiff := hturns.matched hb (fun g hg => hw.size g (hgs.subset hg)) (SameNodes.refl _)
  rw [hmapped, and_iff_right (fun x hx => nomatch hx)] at hiff
  constructor
  · exact fun hbacked => hiff.mp hbacked.1
  · exact fun hf =>
      ⟨hiff.mpr hf, (hturns.kept hb hw hgs.subset
        ⟨.refl _, fun _ hb => hb, fun _ _ => rfl, hw.apart⟩ hf).mem⟩

theorem loadSegments_singleton (htype : g.type = ptLoad) :
    loadSegments fuel elf [g] s = loadSegment fuel elf g s := by
  simp only [loadSegments, htype, if_true]
  cases hseg : loadSegment fuel elf g s with
  | none => rfl
  | some x =>
    rw [bind_some]
    split
    · next hrun => rw [← hrun]
    · rfl

end

/-! ### A page and a byte -/

/-- The loader before its first program, with a heap. -/
def idle (h : Heap) : Loader where
  heap := h
  pages := fun _ => 0
  mem := fun _ => 0
  vaAddress := fun _ => 0
  vaCount := 0
  paAddress := fun _ => 0
  paCount := 0
  overrun := false
  mapped := []

/-- An image with one segment, of ones. -/
def oneSegment (vaddr size : UInt32) : Image where
  ident := [0x7f, 0x45, 0x4c, 0x46]
  phdrs := [⟨ptLoad, 0, vaddr, size, size⟩]
  bytes := fun _ => 1

/-- Five free blocks, the last four of which are a page. -/
def pageHeap : Heap where
  node := fun p =>
    if p = 0x100 then ⟨0xC00, 1024, some 0x118, false, false, 5, 0⟩
    else if p = 0x118 then ⟨0x1000, 1024, some 0x130, false, false, 0, 0⟩
    else if p = 0x130 then ⟨0x1400, 1024, some 0x148, false, false, 0, 0⟩
    else if p = 0x148 then ⟨0x1800, 1024, some 0x160, false, false, 0, 0⟩
    else ⟨0x1C00, 1024, none, false, false, 0, 0⟩
  memoryRegion := some 0x100
  totalRegionSize := 0x10000
  heapActive := true
  memLockAlloc := false
  memLockFree := false

abbrev pageNodes : List NodePtr := [0x100, 0x118, 0x130, 0x148, 0x160]

theorem initial_pageHeap : Initial pageHeap pageNodes where
  chain := ⟨rfl, rfl, rfl, rfl, rfl, rfl⟩
  two := by decide
  spaced := spaced_of_addrs 0xC00 rfl
  size := by intro p hp; fin_cases hp <;> rfl
  free := by intro p hp; fin_cases hp <;> rfl
  first := by intro p hp; fin_cases hp <;> rfl
  used := by intro p hp; fin_cases hp <;> rfl

theorem wellFormed_oneSegment (ns : List NodePtr) (h : Heap) {vaddr size : UInt32}
    (hspace : vaddr.toNat + size.toNat ≤ 2 ^ 32) :
    WellFormed ns (oneSegment vaddr size) (idle h) where
  size := by simp [oneSegment]
  space := by simpa [oneSegment] using hspace
  apart := fun g hg ht a ha1 ha2 hpresent => absurd hpresent (by simp [idle, present])

/-- A segment of one page, in a block that starts a page. -/
theorem backed_page : ∃ s' status, Returns (loadSegments · (oneSegment 0x8048000 4096)
      (oneSegment 0x8048000 4096).phdrs (idle pageHeap)) (s', status) ∧
    Backed pageNodes (idle pageHeap) s' := by
  have hb : Ready pageHeap pageNodes [] := Ready.of_reachable initial_pageHeap .start rfl rfl rfl
  have hmalloc : (kmalloc 1 pageHeap 4096).isSome := by decide
  obtain ⟨⟨h, p⟩, hmalloc⟩ := isSome_iff_exists.mp hmalloc
  obtain ⟨⟨s', status⟩, hseg⟩ : ∃ r, loadSegment 1 (oneSegment 0x8048000 4096)
      ⟨ptLoad, 0, 0x8048000, 4096, 4096⟩ (idle pageHeap) = some r :=
    ⟨_, map_eq_some_iff.mpr ⟨(h, p), hmalloc, rfl⟩⟩
  have hret : Returns (loadSegments · (oneSegment 0x8048000 4096)
      (oneSegment 0x8048000 4096).phdrs (idle pageHeap)) (s', status) :=
    ⟨1, (loadSegments_singleton rfl).trans hseg⟩
  refine ⟨s', status, hret,
    (backed_iff_fits hb (wellFormed_oneSegment _ _ (by decide)) rfl prefix_rfl hret).mpr
      ⟨fun q hq => ?_, fun _ _ => trivial⟩⟩
  have hfirst : blockFor pageHeap pageNodes 4096 = some 0x118 := by
    decide
  obtain rfl : q = 0x118 := some.inj (hq.symm.trans hfirst)
  exact .inr ⟨by decide, by decide, by decide⟩

/-- The byte of a segment is written to the block of another owner. -/
theorem not_backed_byte : ∃ s',
    Ready smallHeap [0x100, 0x118, 0x130] [⟨0x1400, 100⟩] ∧
    WellFormed [0x100, 0x118, 0x130] (oneSegment 0x8048400 1) (idle smallHeap) ∧
    Returns (loadSegments · (oneSegment 0x8048400 1)
      (oneSegment 0x8048400 1).phdrs (idle smallHeap)) (s', .running) ∧
    ¬Backed [0x100, 0x118, 0x130] (idle smallHeap) s' := by
  have hr : Reachable (sampleHeap 4096) smallHeap [⟨0x1400, 100⟩] :=
    Reachable.allocate (p := 0x1400) .start ⟨by decide, by decide, by decide⟩ ⟨1, rfl⟩
  have hb := Ready.of_reachable (initial_sampleHeap 4096) hr rfl rfl rfl
  refine ⟨_, hb, wellFormed_oneSegment _ _ (by decide), ⟨2, rfl⟩, fun hbacked => ?_⟩
  have hheld : Held smallHeap [0x100, 0x118, 0x130] 0x1400 :=
    ⟨0x118, by decide, ⟨by decide, by decide⟩, by decide⟩
  exact absurd (hbacked.2 0x1400 hheld) (by decide)

/-! ### The bytes of one segment -/

/-- The pages that have been mapped between two states. -/
def pagesMapped (s s' : Loader) : List ℕ := (s'.mapped.drop s.mapped.length).map Mapping.page

/-- The bytes of the segment, and those that are copied and cleared, lie in pages. -/
structure Covered (g : Phdr) (ps : List ℕ) : Prop where
  bytes : ∀ a, g.vaddr.toNat ≤ a → a < g.vaddr.toNat + g.memsz.toNat → a / 4096 ∈ ps
  copy : ∀ k < g.filesz.toNat, (g.vaddr + UInt32.ofNat k).toNat / 4096 ∈ ps
  clear : ∀ k < (g.memsz - g.filesz).toNat, (g.vaddr + g.filesz + UInt32.ofNat k).toNat / 4096 ∈ ps

section

variable {fuel : ℕ} {elf : Image} {g : Phdr} {s s' : Loader} {status : Status} {h : Heap}
  {region : UInt32}

theorem exists_loadSegment (elf : Image) (hmalloc : Returns (kmalloc · s.heap g.filesz) (h, region))
    (hregion : region ≠ 0) :
    ∃ s' status, Returns (loadSegment · elf g s) (s', status) ∧
      status ≠ .noMemory := by
  obtain ⟨fuel, hmalloc⟩ := hmalloc
  exact ⟨_, _, ⟨fuel, map_eq_some_iff.mpr ⟨(h, region), hmalloc, if_neg hregion⟩⟩,
    status_ne_noMemory _⟩

theorem mem_pagesMapped (hspace : g.vaddr.toNat + g.memsz.toNat ≤ 2 ^ 32)
    (hret : loadSegment fuel elf g s = some (s', status)) (hmem : status ≠ .noMemory) (p : ℕ) :
    p ∈ pagesMapped s s' ↔ g.vaddr.toNat / 4096 ≤ p ∧ p < g.vaddr.toNat / 4096 + g.numPages := by
  obtain ⟨r, -, ⟨-, hno, -⟩ | ⟨-, -, hmapped, -⟩⟩ := loadSegment_spec hret
  · exact absurd hno hmem
  have hpage : ∀ k < g.numPages,
      (mappingAt s.heap s'.heap g.vaddr r k).page = g.vaddr.toNat / 4096 + k := by
    intro k hk
    have hconst : (4096 : UInt32).toNat = 4096 := rfl
    rw [Phdr.numPages] at hk
    simp only [mappingAt, UInt32.toNat_add, UInt32.toNat_mul, UInt32.toNat_ofNat', hconst]
    split at hk <;> omega
  rw [pagesMapped, hmapped, List.drop_left, List.map_map, List.mem_map]
  constructor
  · rintro ⟨k, hk, rfl⟩
    have hk := List.mem_range.mp hk
    rw [Function.comp_apply, hpage k hk]
    omega
  · rintro ⟨hle, hlt⟩
    refine ⟨p - g.vaddr.toNat / 4096, List.mem_range.mpr (by omega), ?_⟩
    rw [Function.comp_apply, hpage _ (by omega)]
    omega

/-- **The pages of a segment cover it**, if `kmalloc` returns a block, if and only if it is empty or
far enough from the end of its last page. -/
theorem covered_iff (elf : Image) (hsize : g.filesz.toNat ≤ g.memsz.toNat)
    (hspace : g.vaddr.toNat + g.memsz.toNat ≤ 2 ^ 32)
    (hmalloc : Returns (kmalloc · s.heap g.filesz) (h, region))
    (hregion : region ≠ 0) :
    ∃ s' status, Returns (loadSegment · elf g s) (s', status) ∧
      (Covered g (pagesMapped s s') ↔
        (g.memsz.toNat = 0 ∨ g.vaddr.toNat % 4096 + g.memsz.toNat ≤ 4096 * g.numPages)) := by
  obtain ⟨s', status, ⟨fuel, hret⟩, hmem⟩ := exists_loadSegment elf hmalloc hregion
  refine ⟨s', status, ⟨fuel, hret⟩, ?_⟩
  have hmem := mem_pagesMapped hspace hret hmem
  constructor
  · intro h
    by_contra hlong
    -- the last byte is not in a page
    have hlast := h.bytes (g.vaddr.toNat + g.memsz.toNat - 1) (by omega) (by omega)
    rw [hmem] at hlast
    omega
  · intro h
    have hbytes : ∀ a, g.vaddr.toNat ≤ a → a < g.vaddr.toNat + g.memsz.toNat →
        a / 4096 ∈ pagesMapped s s' := by
      intro a ha ha'
      rw [hmem]
      omega
    have hrest := UInt32.toNat_sub_of_le g.memsz g.filesz (UInt32.le_iff_toNat_le.mpr hsize)
    refine ⟨hbytes, fun k hk => hbytes _ ?_ ?_, fun k hk => hbytes _ ?_ ?_⟩ <;>
      simp only [UInt32.toNat_add, UInt32.toNat_ofNat'] <;> omega

end

/-- The pages of a segment of one page. -/
theorem covered_page : ∃ s' status, Returns (loadSegment · (oneSegment 0x8048000 4096)
      ⟨ptLoad, 0, 0x8048000, 4096, 4096⟩ (idle pageHeap)) (s', status) ∧
    Covered ⟨ptLoad, 0, 0x8048000, 4096, 4096⟩ (pagesMapped (idle pageHeap) s') := by
  have hmalloc : Returns (kmalloc · (idle pageHeap).heap 4096) (_, 0x1000) := ⟨1, rfl⟩
  obtain ⟨s', status, hret, hiff⟩ := covered_iff (oneSegment 0x8048000 4096)
    (g := ⟨ptLoad, 0, 0x8048000, 4096, 4096⟩) (by decide) (by decide) hmalloc (by decide)
  exact ⟨s', status, hret, hiff.mpr (by decide)⟩

/-- The second of two bytes is in the next page. -/
theorem not_covered_twoBytes : ∃ s' status, Returns (loadSegment · (oneSegment 0x8048FFF 2)
      ⟨ptLoad, 0, 0x8048FFF, 2, 2⟩ (idle pageHeap)) (s', status) ∧ status ≠ .noMemory ∧
    ¬Covered ⟨ptLoad, 0, 0x8048FFF, 2, 2⟩ (pagesMapped (idle pageHeap) s') := by
  have hmalloc : Returns (kmalloc · (idle pageHeap).heap 2) (_, 0x1000) := ⟨1, rfl⟩
  obtain ⟨s', status, ⟨fuel, hseg⟩, hmem⟩ := exists_loadSegment (oneSegment 0x8048FFF 2)
    (g := ⟨ptLoad, 0, 0x8048FFF, 2, 2⟩) hmalloc (by decide)
  refine ⟨s', status, ⟨fuel, hseg⟩, hmem, fun h => ?_⟩
  have hlast := h.bytes 0x8049000 (by decide) (by decide)
  rw [mem_pagesMapped (by decide) hseg hmem] at hlast
  exact absurd hlast (by decide)

end AthenX.Elf
