import AthenX.Paging.Ground

/-!
# Cloning and destroying directories

`clone_directory` and `destroy_directory` of `kernel/vmm/vmm.c`. A clone shares the page tables that
its source shares with the kernel, and gets its own for everything else, and one for
`USER_DIR_VIRTUAL`, where it maps itself; its entry for `USER_TABLES_VIRTUAL` is the clone itself.

`copy_page_physical`, with paging off, reads from its first argument, while `vmm.c` declares and
calls it the other way round, with the flags of the entry in its low bits. The structure of a
directory is a value here; its block is in the kernel heap.
-/

namespace AthenX.Paging

/-- `PAGE_USER`. -/
def pageUser : UInt32 := 0x4
/-- `USER_DIR_VIRTUAL`. -/
def userDirVirtual : UInt32 := 0xEFBFF000
/-- `USER_TABLES_VIRTUAL`. -/
def userTablesVirtual : UInt32 := 0xEFC00000

/-! ### `copy_page_physical` -/

/-- The four bytes at a physical address, which need not be aligned. -/
def Machine.peek (m : Machine) (a : UInt32) : UInt32 :=
  let lo := m.mem (frameOf a) (wordOf a)
  let hi := m.mem (frameOf (a + 4)) (wordOf (a + 4))
  if a % 4 = 0 then lo else (lo >>> (8 * (a % 4))) ||| (hi <<< (32 - 8 * (a % 4)))

/-- What is read three bytes into the word `lo`, when `hi` is the next one. -/
def shifted (lo hi : UInt32) : UInt32 := (lo >>> 24) ||| (hi <<< 8)

/-- The loop of `copy_page_physical`. What it writes to is aligned. -/
def copyWords : ℕ → UInt32 → UInt32 → Machine → Machine
  | 0,     _, _, m => m
  | n + 1, a, b, m => copyWords n (a + 4) (b + 4) (m.poke (frameOf b) (wordOf b) (m.peek a))

/-- `copy_page_physical`: its first argument is the source, its second the destination. -/
def copyPagePhysical (m : Machine) (source dest : UInt32) : Machine :=
  copyWords 1024 source dest m

/-! ### `clone_directory` -/

/-- The body of the inner loop, for page `j`. -/
def clonePage (src dest : Mount) (j : UInt32) (m : Machine) : Option Machine := do
  let e ← m.load (src.pages + 4 * j)
  if e = 0 then some m
  else do
    let (p, m) ← pmmAllocPage m
    let m ← m.store (dest.pages + 4 * j) (p ||| pagePresent ||| pageWrite ||| pageUser)
    let d ← m.load (dest.pages + 4 * j)
    let e ← m.load (src.pages + 4 * j)
    let m := copyPagePhysical m d (pageAddrMask &&& e)
    let d ← m.load (dest.pages + 4 * j)
    let e ← m.load (src.pages + 4 * j)
    m.store (dest.pages + 4 * j) (d ||| (pageFlagsMask &&& e))

/-- The inner loop from page `j` on, with `n` iterations to go. -/
def clonePages (src dest : Mount) : ℕ → UInt32 → Machine → Option Machine
  | 0,     _, m => some m
  | n + 1, j, m => do
      let m ← clonePage src dest j m
      clonePages src dest n (j + 1) m

/-- The body of the outer loop, for entry `i` of the directory. -/
def cloneEntry (src dest : Mount) (i : UInt32) (m : Machine) : Option Machine := do
  let e ← m.load (src.directory + 4 * i)
  if e = 0 then some m
  else do
    let k ← m.load (m.kernelDirectory.directory + 4 * i)
    if e = k then m.store (dest.directory + 4 * i) e
    else do
      let (p, m) ← pmmAllocPage m
      let m ← m.store (dest.directory + 4 * i) (p ||| pagePresent ||| pageWrite ||| pageUser)
      let m ← m.memsetPage (dest.pages + 4 * (i * 1024))
      clonePages src dest 1024 (1024 * i) m

/-- The outer loop from entry `i` on, with `n` iterations to go. -/
def cloneEntries (src dest : Mount) : ℕ → UInt32 → Machine → Option Machine
  | 0,     _, m => some m
  | n + 1, i, m => do
      let m ← cloneEntry src dest i m
      cloneEntries src dest n (i + 1) m

/-- `clone_directory`. -/
def cloneDirectory (m : Machine) (srcDir : PageDirectory) : Option (PageDirectory × Machine) := do
  let (physical, m) ← pmmAllocPage m
  let destDir : PageDirectory := ⟨physical, userDirVirtual, userTablesVirtual⟩
  let (src, m) ← mountDirectory m srcDir
  let (dest, m) ← mountDirectory m destDir
  let m ← m.memsetPage dest.directory
  let m ← cloneEntries src dest 1024 0 m
  -- the mapping for the directory itself; its page table is not cleared
  let (p, m) ← pmmAllocPage m
  let m ← m.store (dest.directory + 4 * pgdirIdxFromAddr userDirVirtual)
    (p ||| pagePresent ||| pageWrite)
  let m ← m.store (dest.pages + 4 * pgNumFromAddr userDirVirtual)
    (physical ||| pagePresent ||| pageWrite)
  -- the mapping for the page tables
  let m ← m.store (dest.directory + 4 * pgdirIdxFromAddr userTablesVirtual)
    (physical ||| pagePresent ||| pageWrite)
  let m ← umountDirectory m src
  let m ← umountDirectory m dest
  some (destDir, m)

/-- What `clone_directory` returns for a clone at `p`. -/
abbrev userDirectory (p : UInt32) : PageDirectory := ⟨p, userDirVirtual, userTablesVirtual⟩

/-! ### `destroy_directory` -/

/-- The body of the inner loop, for page `j`: page `pageNum` is left alone. -/
def freePage (mp : Mount) (pageNum j : UInt32) (m : Machine) : Option Machine := do
  let e ← m.load (mp.pages + 4 * j)
  if e = 0 ∨ j = pageNum then some m else pmmFreePage m (e &&& pageAddrMask)

/-- The inner loop from page `j` on, with `n` iterations to go. -/
def freePages (mp : Mount) (pageNum : UInt32) : ℕ → UInt32 → Machine → Option Machine
  | 0,     _, m => some m
  | n + 1, j, m => do
      let m ← freePage mp pageNum j m
      freePages mp pageNum n (j + 1) m

/-- The body of the outer loop, for entry `i` of the directory. -/
def freeEntry (mp : Mount) (dirEntry pageNum i : UInt32) (m : Machine) : Option Machine := do
  let e ← m.load (mp.directory + 4 * i)
  if e = 0 then some m
  else do
    let k ← m.load (m.kernelDirectory.directory + 4 * i)
    if e = k ∨ i = dirEntry then some m
    else do
      let m ← freePages mp pageNum 1024 (1024 * i) m
      let e ← m.load (mp.directory + 4 * i)
      pmmFreePage m (e &&& pageAddrMask)

/-- The outer loop from entry `i` on, with `n` iterations to go. -/
def freeEntries (mp : Mount) (dirEntry pageNum : UInt32) : ℕ → UInt32 → Machine → Option Machine
  | 0,     _, m => some m
  | n + 1, i, m => do
      let m ← freeEntry mp dirEntry pageNum i m
      freeEntries mp dirEntry pageNum n (i + 1) m

/-- `destroy_directory`. -/
def destroyDirectory (m : Machine) (dir : PageDirectory) : Option Machine := do
  let (mp, m) ← mountDirectory m dir
  let m ← freeEntries mp (pgdirIdxFromAddr dir.pages) (pgNumFromAddr dir.directory)
    (pgdirIdxFromAddr kernelAddressSpace).toNat 0 m
  let m ← pmmFreePage m dir.physical
  umountDirectory m mp

/-! ### The copy -/

/-- `copy_page_physical` writes to the frame of its second argument only. -/
structure Copied (m m' : Machine) (f : ℕ) : Prop where
  setup : SameSetup m m'
  loc : m'.pmmStackLoc = m.pmmStackLoc
  mem : ∀ g, g ≠ f → ∀ i, m'.mem g i = m.mem g i

theorem toNat_next {b : UInt32} (hb : b.toNat % 4096 + 8 ≤ 4096) :
    (b + 4).toNat = b.toNat + 4 ∧ frameOf (b + 4) = frameOf b := by
  have hlt := b.toNat_lt
  have hnext : (b + 4).toNat = b.toNat + 4 := by
    rw [UInt32.toNat_add, show (4 : UInt32).toNat = 4 by decide]
    omega
  rw [frameOf_eq, frameOf_eq]
  omega

theorem copied_copyWords (n : ℕ) : ∀ (a b : UInt32) (m : Machine),
    b.toNat % 4096 + 4 * n ≤ 4096 → Copied m (copyWords n a b m) (frameOf b) := by
  induction n with
  | zero =>
    intro a b m _
    exact ⟨.refl m, rfl, fun _ _ _ => rfl⟩
  | succ n ih =>
    intro a b m hb
    have hpoke : Copied m (m.poke (frameOf b) (wordOf b) (m.peek a)) (frameOf b) := by
      refine ⟨sameSetup_mem, rfl, fun g hg i => ?_⟩
      rw [Machine.poke_mem, if_neg fun hc => hg hc.1]
    rcases Nat.eq_zero_or_pos n with rfl | hn
    · exact hpoke
    · obtain ⟨hnext, hframe⟩ := toNat_next (b := b) (by omega)
      have hrec := ih (a + 4) (b + 4) (m.poke (frameOf b) (wordOf b) (m.peek a)) (by omega)
      rw [hframe] at hrec
      exact ⟨hpoke.setup.trans hrec.setup, hrec.loc, fun g hg i =>
        (hrec.mem g hg i).trans (hpoke.mem g hg i)⟩

theorem copyWords_mem_of_lt (n : ℕ) : ∀ (a b : UInt32) (m : Machine) {i : ℕ},
    b.toNat % 4096 + 4 * n ≤ 4096 → i < wordOf b →
    (copyWords n a b m).mem (frameOf b) i = m.mem (frameOf b) i := by
  induction n with
  | zero =>
    intro a b m i _ _
    rfl
  | succ n ih =>
    intro a b m i hb hi
    have hpoke : (m.poke (frameOf b) (wordOf b) (m.peek a)).mem (frameOf b) i =
        m.mem (frameOf b) i := by
      rw [Machine.poke_mem, if_neg]
      rintro ⟨-, rfl⟩
      exact lt_irrefl _ hi
    rw [copyWords]
    rcases Nat.eq_zero_or_pos n with rfl | hn
    · exact hpoke
    · obtain ⟨hnext, hframe⟩ := toNat_next (b := b) (by omega)
      have hword : i < wordOf (b + 4) := by
        rw [wordOf_eq] at hi ⊢
        omega
      rw [← hframe, ih _ _ _ (by omega) hword, hframe, hpoke]

theorem copyWords_first {n : ℕ} (a : UInt32) {b : UInt32} (m : Machine) (hn : 0 < n)
    (hb : b.toNat % 4096 + 4 * (n + 1) ≤ 4096) :
    (copyWords (n + 1) a b m).mem (frameOf b) (wordOf b) = m.peek a := by
  obtain ⟨hnext, hframe⟩ := toNat_next (b := b) (by omega)
  have hword : wordOf b < wordOf (b + 4) := by
    rw [wordOf_eq, wordOf_eq]
    omega
  have hlow := copyWords_mem_of_lt n (a + 4) (b + 4)
    (m.poke (frameOf b) (wordOf b) (m.peek a)) (by omega) hword
  rw [hframe, Machine.poke_mem, if_pos ⟨rfl, rfl⟩] at hlow
  exact hlow

/-- **`copy_page_physical`** writes to the page of its second argument, from the word at the first
on. -/
theorem exists_copied (m : Machine) (a e : UInt32) :
    ∃ m', copyPagePhysical m a (pageAddrMask &&& e) = m' ∧ Copied m m' (frameOf e) ∧
      m'.mem (frameOf e) 0 = m.peek a := by
  have haligned : (pageAddrMask &&& e).toNat = e.toNat / 4096 * 4096 := by
    rw [UInt32.and_comm]
    exact Word32.toNat_aligned _
  have hframe : frameOf (pageAddrMask &&& e) = frameOf e := by
    rw [frameOf_eq, frameOf_eq]
    omega
  have hword : wordOf (pageAddrMask &&& e) = 0 := by
    rw [wordOf_eq]
    omega
  have hcopied := copied_copyWords (1023 + 1) a (pageAddrMask &&& e) m (by omega)
  have hfirst := copyWords_first (n := 1023) a (b := pageAddrMask &&& e) m (by omega) (by omega)
  rw [hframe] at hcopied
  rw [hframe, hword] at hfirst
  exact ⟨copyWords (1023 + 1) a (pageAddrMask &&& e) m, rfl, hcopied, hfirst⟩

/-! ### Loops that collect -/

/-- What a loop appends to a list, one number after the other. -/
theorem eq_flatMap_range' {α : Type*} {f : ℕ → ℕ → List α} {g : ℕ → List α} (h₀ : ∀ i, f 0 i = [])
    (h : ∀ n i, f (n + 1) i = g i ++ f n (i + 1)) (n i : ℕ) :
    f n i = (List.range' i n).flatMap g := by
  induction n generalizing i with
  | zero => exact h₀ i
  | succ n ih => rw [h, ih, List.range'_succ, List.flatMap_cons]

end AthenX.Paging
