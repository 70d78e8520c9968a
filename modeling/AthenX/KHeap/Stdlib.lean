import AthenX.KHeap.Kmalloc
import AthenX.Lib.Table

/-!
# The list of allocated blocks

`malloc_int`, `calloc`, `realloc` and `free` of `kernel/kheap/stdlib.c` keep the pointers they have
handed out in `allocation_ptrs`, so that `kheap_shutdown` can free what is left. `free` lowers
`allocation_ptrs_count` for every entry it looks at, so half of the list is gone: it is right only
with at most two entries. The contents of the blocks are left out.
-/

namespace AthenX.KHeap

open Linked Table List Option

/-! ### The functions -/

/-- The heap, `allocation_ptrs` and `allocation_ptrs_count`. -/
structure Allocator where
  heap : Heap
  ptrs : ℕ → UInt32
  count : ℕ

/-- The number of entries of `allocation_ptrs`. -/
def maxPtrs : ℕ := 2560

/-- `malloc_int`. -/
def mallocInt (fuel : ℕ) (s : Allocator) (size : UInt32) : Option (Allocator × UInt32) :=
  (kmalloc fuel s.heap size).map fun (h, ptr) =>
    if ptr = 0 then ({ s with heap := h }, 0)
    else (⟨h, Function.update s.ptrs s.count ptr, s.count + 1⟩, ptr)

/-- `calloc`. The product is a `size_t`. -/
def calloc (fuel : ℕ) (s : Allocator) (numElements elementSize : UInt32) :
    Option (Allocator × UInt32) :=
  mallocInt fuel s (numElements * elementSize)

/-- The loop of `free` from entry `i` on, at most `k` times. It lowers the count in every iteration.
-/
def unlist (ptr : UInt32) : ℕ → ℕ → (ℕ → UInt32) → ℕ → (ℕ → UInt32) × ℕ
  | 0, _, a, n => (a, n)
  | k + 1, i, a, n =>
      if i < n then unlist ptr k (i + 1) (if ptr = a i then remove a i n 0 else a) (n - 1)
      else (a, n)

/-- `free`. The count bounds the iterations of its loop. -/
def free (fuel : ℕ) (s : Allocator) (ptr : UInt32) : Option Allocator :=
  let (a, n) := unlist ptr s.count 0 s.ptrs s.count
  (kfree fuel s.heap ptr).map fun h => ⟨h, a, n⟩

/-- `realloc`. -/
def realloc (fuel : ℕ) (s : Allocator) (ptr newSize : UInt32) : Option (Allocator × UInt32) :=
  if ptr = 0 then mallocInt fuel s newSize
  else if newSize = 0 then (free fuel s ptr).map fun s' => (s', 0)
  else
    (mallocInt fuel s newSize).bind fun (s', newPtr) =>
      if newPtr = 0 then some (s', newPtr)
      else (free fuel s' ptr).map fun s'' => (s'', newPtr)

/-- `kheap_shutdown`. -/
def kheapShutdown (fuel : ℕ) (s : Allocator) : Option Heap :=
  (entries s.ptrs s.count).foldlM (kfree fuel) s.heap

/-! ### Runs -/

/-- A call. -/
inductive StdCall where
  | malloc (size : UInt32)
  | calloc (numElements elementSize : UInt32)
  | realloc (ptr newSize : UInt32)
  | free (ptr : UInt32)
  deriving DecidableEq, Repr

namespace StdCall

/-- Run a call. -/
def exec (fuel : ℕ) (s : Allocator) : StdCall → Option (Allocator × UInt32)
  | malloc size => mallocInt fuel s size
  | calloc numElements elementSize => KHeap.calloc fuel s numElements elementSize
  | realloc ptr newSize => KHeap.realloc fuel s ptr newSize
  | free ptr => (KHeap.free fuel s ptr).map fun s' => (s', 0)

/-- The pointers that are passed are live. -/
def Valid (live : List UInt32) : StdCall → Prop
  | malloc _ => True
  | calloc _ _ => True
  | realloc ptr _ => ptr = 0 ∨ ptr ∈ live
  | free ptr => ptr ∈ live

/-- The live pointers after a call that returned `p`. -/
def live (live : List UInt32) (p : UInt32) : StdCall → List UInt32
  | malloc _ => if p = 0 then live else live ++ [p]
  | calloc _ _ => if p = 0 then live else live ++ [p]
  | realloc ptr newSize =>
      if ptr = 0 then (if p = 0 then live else live ++ [p])
      else if newSize = 0 then live.erase ptr
      else if p = 0 then live else (live ++ [p]).erase ptr
  | free ptr => live.erase ptr

end StdCall

/-- The calls that return, on live pointers, at most 2560 of them, with their states. -/
inductive StdRun (s₀ : Allocator) : Allocator → List UInt32 → List (Allocator × StdCall) → Prop
  | start : StdRun s₀ s₀ [] []
  | call {s s' : Allocator} {live : List UInt32} {steps : List (Allocator × StdCall)}
      {c : StdCall} {p : UInt32} : StdRun s₀ s live steps → c.Valid live →
      Returns (c.exec · s) (s', p) → (c.live live p).length ≤ maxPtrs →
      StdRun s₀ s' (c.live live p) (steps ++ [(s, c)])

/-- The list holds the live pointers, each once. -/
def Lists (s : Allocator) (live : List UInt32) : Prop :=
  (entries s.ptrs s.count).Nodup ∧ ∀ p, p ∈ entries s.ptrs s.count ↔ p ∈ live

/-- A size for which `kmalloc` marks what it returns, or returns null. -/
def SizeFits (h : Heap) (size : UInt32) : Prop :=
  (1 ≤ size.toNat ∧ size.toNat + 1023 ≤ 2147483647) ∨ h.totalRegionSize ≤ size

/-- The calls that keep the list right: `free` with at most two blocks, `realloc`'s included. -/
def Fits (s : Allocator) : StdCall → Prop
  | .malloc size => SizeFits s.heap size
  | .calloc numElements elementSize => SizeFits s.heap (numElements * elementSize)
  | .realloc ptr newSize =>
      if ptr = 0 then SizeFits s.heap newSize
      else if newSize = 0 then s.count ≤ 2
      else s.heap.totalRegionSize ≤ newSize ∨ SizeFits s.heap newSize ∧ s.count ≤ 1
  | .free _ => s.count ≤ 2

/-! ### `kmalloc` and `kfree` -/

variable {h' h₀ : Heap} {ns : List NodePtr} {runs : List (Allocation × List NodePtr)}
  {a : Allocation} {base : List Allocation}

section

variable {h : Heap}

theorem Runs.of_node (hr : Runs h ns runs) (hn : h'.node = h.node) : Runs h' ns runs := by
  obtain ⟨h1, h2, h3, h4, h5, h6⟩ := hr
  refine ⟨fun a ha => ?_, h2, by rwa [hn], by rwa [hn], by rwa [hn], by rwa [hn]⟩
  obtain ⟨hlen, hcons, hptr⟩ := h1 a ha
  exact ⟨hlen, hcons, by rwa [hn]⟩

section

variable (hc : h.Chained ns) (hs : Spaced h ns) (hr : Runs h ns runs)

include hc hs hr

theorem runs_kmalloc {size p : UInt32}
    (ha : h.heapActive = true) (hl : h.memLockAlloc = false)
    (hsize : SizeFits h size) (hret : Returns (kmalloc · h size) (h', p)) :
    SameNodes h h' ∧ ∃ runs', Runs h' ns runs' ∧ runs'.map Prod.fst =
      if p = 0 then runs.map Prod.fst else runs.map Prod.fst ++ [⟨p, size.toInt32⟩] := by
  obtain ⟨-, hn, hcase⟩ := kmalloc_spec ha hl hc hret
  refine ⟨hn, ?_⟩
  rcases hcase with ⟨rfl, hm⟩ | ⟨start, rest, hlt, hf, rfl⟩
  · exact ⟨runs, hr.congr hn hm, by rw [if_pos rfl]⟩
  · obtain ⟨h1, h2⟩ := hsize.resolve_right (UInt32.not_le.mpr hlt)
    have hint : size.toInt32.toInt = size.toNat := by rw [toInt_toInt32, if_pos (by omega)]
    obtain ⟨run, hrun, hmark, hfree, hnum⟩ := hf.isRun ⟨by omega, by omega, by simpa using hlt⟩
    refine ⟨runs ++ [(_, run)], hr.mark hmark hrun hnum hfree, ?_⟩
    rw [if_neg (hs.addr_ne_zero (hf.tail.subset mem_cons_self)), map_append]
    rfl

theorem runs_kfree
    (hl : h.memLockFree = false) (ha : a ∈ runs.map Prod.fst)
    (hret : Returns (kfree · h a.ptr) h') :
    SameNodes h h' ∧ ∃ runs', Runs h' ns runs' ∧
      runs'.map Prod.fst = (runs.map Prod.fst).erase a := by
  obtain ⟨fuel, hres⟩ := hret
  simp only [kfree, hl] at hres
  obtain ⟨⟨h'', r⟩, hfree, rfl⟩ := map_eq_some_iff.mp hres
  have hr' : Runs { h with memLockFree := true } ns runs := hr.of_node rfl
  obtain ⟨hn, runs', hruns', hmap⟩ := runs_free (h := { h with memLockFree := true }) hc hs hr' ha
    ⟨fuel, hfree⟩
  exact ⟨⟨hn.memoryRegion, hn.totalRegionSize, hn.heapActive, hn.memLockAlloc, hl.symm, hn.addr,
    hn.size, hn.next⟩, runs', hruns'.of_node rfl, hmap⟩

/-- `kfree` of a live pointer returns, and clears its run. -/
theorem kfree_cleared {x : Allocation × List NodePtr}
    (hl : h.memLockFree = false) (hx : x ∈ runs) :
    ∃ h', kfree ns.length h x.1.ptr = some h' ∧ Cleared h h' x.2 := by
  have hr' : Runs { h with memLockFree := true } ns runs := hr.of_node rfl
  obtain ⟨h', hres, hcl⟩ := sysFreeMemory_length (h := { h with memLockFree := true }) hc hs hr' hx
  have hn := hcl.nodes
  refine ⟨{ h' with memLockFree := false }, ?_, ⟨hn.memoryRegion, hn.totalRegionSize,
    hn.heapActive, hn.memLockAlloc, hl.symm, hn.addr, hn.size, hn.next⟩, hcl.frame, hcl.allocated,
    hcl.used, hcl.first⟩
  simp only [kfree, hl]
  rw [hres]
  rfl

theorem kfree_length
    (hl : h.memLockFree = false) (ha : a ∈ runs.map Prod.fst) :
    ∃ h', kfree ns.length h a.ptr = some h' := by
  obtain ⟨x, hx, rfl⟩ := mem_map.mp ha
  obtain ⟨h', hres, -⟩ := kfree_cleared hc hs hr hl hx
  exact ⟨h', hres⟩

end

theorem Runs.nodup_ptr (hr : Runs h ns runs) (hs : Spaced h ns) :
    ((runs.map Prod.fst).map Allocation.ptr).Nodup := by
  rw [List.map_map, List.Nodup, List.pairwise_map]
  refine (List.pairwise_map.mp hr.disjoint).imp_of_mem fun {a b} ha hb hd heq => ?_
  obtain ⟨p, hp, hpa⟩ := Option.map_eq_some_iff.mp (hr.isRun a ha).ptr
  obtain ⟨q, hq, hqb⟩ := Option.map_eq_some_iff.mp (hr.isRun b hb).ptr
  have hpm := List.mem_of_mem_head? hp
  have hqm := List.mem_of_mem_head? hq
  have hmem : ∀ {c : Allocation × List NodePtr} {x : NodePtr}, c ∈ runs → x ∈ c.2 → x ∈ ns :=
    fun hc hx => List.mem_of_mem_tail ((hr.isRun _ hc).consecutive.subset hx)
  have hpq : p = q := hs.addr_inj (hmem ha hpm) (hmem hb hqm) (hpa.trans (heq.trans hqb.symm))
  exact hd hpm (hpq ▸ hqm)

/-! ### The loop of `free` -/

/-- **What is left of the list**: from the first entry on, half of it. -/
theorem unlist_count (ptr : UInt32) : ∀ (k i : ℕ) (a : ℕ → UInt32) (n : ℕ), n ≤ k + i → i ≤ n + 1 →
    (unlist ptr k i a n).2 = (n + i) / 2 := by
  intro k
  induction k with
  | zero =>
    intro i a n hk hi
    show n = (n + i) / 2
    omega
  | succ k ih =>
    intro i a n hk hi
    rw [unlist]
    split
    · rw [ih (i + 1) _ (n - 1) (by omega) (by omega)]
      congr 1
      omega
    · show n = (n + i) / 2
      omega

theorem entries_unlist {ptr : UInt32} {a : ℕ → UInt32} {n : ℕ} (hn : n ≤ 2)
    (hmem : ptr ∈ entries a n) (hnd : (entries a n).Nodup) :
    entries (unlist ptr n 0 a n).1 (unlist ptr n 0 a n).2 = (entries a n).erase ptr := by
  match n with
  | 0 => simp [entries] at hmem
  | 1 =>
    obtain rfl : ptr = a 0 := by simpa [entries] using hmem
    simp [unlist, entries]
  | 2 =>
    have hentries : entries a 2 = [a 0, a 1] := rfl
    rw [hentries] at hmem hnd ⊢
    have hne : a 0 ≠ a 1 := by simpa using hnd
    by_cases hp : ptr = a 0
    · -- the first iteration removes it, and there is no second one
      have hentry := entries_remove a (show 0 < 2 by omega) 0
      simpa [unlist, hp, hentries] using hentry
    · -- the first iteration only lowers the count
      have hp' : ptr = a 1 := by simpa [hp] using hmem
      simp [unlist, hp', hne.symm, hne, entries]
  | n + 3 => omega

/-! ### One call -/

/-- The heap the calls start in. `base` are the blocks live already, that of the list among them. -/
structure Ready (h₀ : Heap) (ns : List NodePtr) (base : List Allocation) : Prop where
  chain : h₀.Chained ns
  spaced : Spaced h₀ ns
  runs : ∃ runs, Runs h₀ ns runs ∧ runs.map Prod.fst = base
  active : h₀.heapActive = true
  unlocked : h₀.memLockAlloc = false
  unlockedFree : h₀.memLockFree = false

theorem Ready.of_reachable (hi : Initial h₀ ns) (hr : Reachable h₀ h base)
    (ha : h₀.heapActive = true) (hl : h₀.memLockAlloc = false) (hf : h₀.memLockFree = false) :
    Ready h ns base := by
  obtain ⟨hn, hruns⟩ := exists_runs_of_reachable hi hr
  exact ⟨hn.chained hi.chain, hn.spaced hi.spaced, hruns,
    hn.heapActive.trans ha, hn.memLockAlloc.trans hl, hn.memLockFree.trans hf⟩

/-- The blocks that are live are those of `base` and those in the list. -/
structure Sound (h₀ : Heap) (ns : List NodePtr) (base : List Allocation) (s : Allocator)
    (live : List UInt32) : Prop where
  nodes : SameNodes h₀ s.heap
  blocks : ∃ runs as, Runs s.heap ns runs ∧ runs.map Prod.fst = base ++ as ∧
    as.map Allocation.ptr = live
  table : entries s.ptrs s.count = live

end

section

variable {s s' : Allocator} {live : List UInt32} {size ptr p : UInt32}

/-- With three entries or more, `free` leaves too few. -/
theorem not_lists_free (hl : Lists s live) (hnd : live.Nodup) (hp : ptr ∈ live)
    (hcount : 3 ≤ s.count) (hret : Returns (KHeap.free · s ptr) s') :
    ¬Lists s' (live.erase ptr) := by
  intro hl'
  obtain ⟨fuel, hret⟩ := hret
  obtain ⟨h', -, rfl⟩ := map_eq_some_iff.mp hret
  have hlen : s.count = live.length := by
    have hperm := (perm_ext_iff_of_nodup hl.1 hnd).mpr hl.2
    simpa using hperm.length_eq
  have hperm := (perm_ext_iff_of_nodup hl'.1 (hnd.erase ptr)).mpr hl'.2
  have hlen' := hperm.length_eq
  have hhalf := unlist_count ptr s.count 0 s.ptrs s.count (by omega) (by omega)
  simp only [length_entries, length_erase_of_mem hp] at hlen'
  omega

/-- `kmalloc` returns null for a size that is not less than the region. -/
theorem mallocInt_eq_zero (hge : s.heap.totalRegionSize ≤ size)
    (hret : Returns (KHeap.mallocInt · s size) (s', p)) : p = 0 := by
  obtain ⟨fuel, hret⟩ := hret
  obtain ⟨⟨h', q⟩, hk, he⟩ := map_eq_some_iff.mp hret
  have hq : q = 0 := by
    simp only [kmalloc, sysAllocateMemory, UInt32.toUInt32_toInt32] at hk
    split at hk
    · cases hk
    split at hk
    · cases hk
    · simpa using (congrArg (Option.map Prod.snd) hk).symm
  simp only [hq, if_true, Prod.mk.injEq] at he
  exact he.2.symm

variable (h : Sound h₀ ns base s live) (hb : Ready h₀ ns base)

include h hb

theorem Sound.nodup : live.Nodup := by
  obtain ⟨runs, as, hr, hmap, rfl⟩ := h.blocks
  have hnd := hr.nodup_ptr (h.nodes.spaced hb.spaced)
  rw [hmap, map_append] at hnd
  exact hnd.of_append_right

theorem Sound.lists : Lists s live := by
  refine ⟨?_, fun p => ?_⟩
  · rw [h.table]
    exact h.nodup hb
  · rw [h.table]

theorem Sound.mallocInt (hsize : SizeFits s.heap size)
    (hret : Returns (mallocInt · s size) (s', p)) :
    Sound h₀ ns base s' (if p = 0 then live else live ++ [p]) := by
  obtain ⟨fuel, hret⟩ := hret
  obtain ⟨⟨h', q⟩, hk, he⟩ := map_eq_some_iff.mp hret
  obtain ⟨runs, as, hr, hmap, hlive⟩ := h.blocks
  have hn := h.nodes
  obtain ⟨hn', runs', hr', hmap'⟩ := runs_kmalloc (hn.chained hb.chain)
    (hn.spaced hb.spaced) hr (hn.heapActive.trans hb.active) (hn.memLockAlloc.trans hb.unlocked)
    hsize ⟨fuel, hk⟩
  by_cases hq : q = 0
  · simp only [hq] at he hmap'
    obtain ⟨rfl, rfl⟩ := he
    exact ⟨hn.trans hn', ⟨runs', as, hr', hmap'.trans hmap, hlive⟩, h.table⟩
  · simp only [hq, if_false, Prod.mk.injEq] at he hmap'
    obtain ⟨rfl, rfl⟩ := he
    rw [if_neg hq]
    refine ⟨hn.trans hn', ⟨runs', as ++ [⟨q, size.toInt32⟩], hr', ?_, ?_⟩, ?_⟩
    · rw [hmap', hmap, append_assoc]
    · rw [map_append, hlive]
      rfl
    · rw [entries_put, h.table]

theorem Sound.kfree (hp : ptr ∈ live) (hret : Returns (kfree · s.heap ptr) h') :
    SameNodes h₀ h' ∧ ∃ runs as, Runs h' ns runs ∧ runs.map Prod.fst = base ++ as ∧
      as.map Allocation.ptr = live.erase ptr := by
  obtain ⟨runs, as, hr, hmap, rfl⟩ := h.blocks
  have hn := h.nodes
  have hs := hn.spaced hb.spaced
  have hnd := hr.nodup_ptr hs
  rw [hmap, map_append] at hnd
  obtain ⟨a, ha, rfl⟩ := mem_map.mp hp
  have hbase : a ∉ base := fun hmem =>
    disjoint_of_nodup_append hnd (mem_map_of_mem hmem) (mem_map_of_mem ha)
  obtain ⟨hn', runs', hr', hmap'⟩ := runs_kfree (hn.chained hb.chain) hs hr
    (hn.memLockFree.trans hb.unlockedFree) (by rw [hmap]; exact mem_append_right _ ha) hret
  refine ⟨hn.trans hn', runs', as.erase a, hr', ?_, ?_⟩
  · rw [hmap', hmap, erase_append_right _ hbase]
  · obtain ⟨l1, l2, -, rfl, herase⟩ := exists_erase_eq ha
    have hnd' := hnd.of_append_right
    rw [map_append] at hnd'
    have hnot : a.ptr ∉ l1.map Allocation.ptr := fun hmem =>
      disjoint_of_nodup_append hnd' hmem mem_cons_self
    rw [herase, map_append, map_append, map_cons, erase_append_right _ hnot, erase_cons_head]

theorem Sound.free (hp : ptr ∈ live) (hcount : s.count ≤ 2)
    (hret : Returns (free · s ptr) s') : Sound h₀ ns base s' (live.erase ptr) := by
  obtain ⟨fuel, hret⟩ := hret
  obtain ⟨h', hk, rfl⟩ := map_eq_some_iff.mp hret
  obtain ⟨hn, runs, as, hr, hmap, hlive⟩ := h.kfree hb hp ⟨fuel, hk⟩
  refine ⟨hn, ⟨runs, as, hr, hmap, hlive⟩, ?_⟩
  have htable := h.table
  have hnd := h.nodup hb
  rw [← htable] at hp hnd ⊢
  exact entries_unlist hcount hp hnd

/-- **One call that fits.** -/
theorem Sound.call {c : StdCall} (hv : c.Valid live) (hfit : Fits s c)
    (hret : Returns (c.exec · s) (s', p)) : Sound h₀ ns base s' (c.live live p) := by
  cases c with
  | malloc size => exact h.mallocInt hb hfit hret
  | calloc numElements elementSize => exact h.mallocInt hb hfit hret
  | free ptr =>
    obtain ⟨fuel, hret⟩ := hret
    obtain ⟨s'', hfree, he⟩ := map_eq_some_iff.mp hret
    cases he
    exact h.free hb hv hfit ⟨fuel, hfree⟩
  | realloc ptr newSize =>
    obtain ⟨fuel, hret⟩ := hret
    simp only [StdCall.exec, realloc] at hret
    simp only [StdCall.live]
    simp only [Fits] at hfit
    by_cases hptr : ptr = 0
    · rw [if_pos hptr] at hret hfit ⊢
      exact h.mallocInt hb hfit ⟨fuel, hret⟩
    have hmem : ptr ∈ live := hv.resolve_left hptr
    rw [if_neg hptr] at hret hfit ⊢
    by_cases hzero : newSize = 0
    · rw [if_pos hzero] at hret hfit ⊢
      obtain ⟨s'', hfree, he⟩ := map_eq_some_iff.mp hret
      cases he
      exact h.free hb hmem hfit ⟨fuel, hfree⟩
    rw [if_neg hzero] at hret hfit ⊢
    obtain ⟨⟨s1, q⟩, hmalloc, hret⟩ := bind_eq_some_iff.mp hret
    have hsize : SizeFits s.heap newSize := hfit.elim .inr And.left
    have h1 := h.mallocInt hb hsize ⟨fuel, hmalloc⟩
    by_cases hq : q = 0
    · simp only [hq] at hret
      obtain ⟨rfl, rfl⟩ := hret
      rwa [if_pos hq] at h1
    · simp only [hq] at hret
      obtain ⟨s'', hfree, he⟩ := map_eq_some_iff.mp hret
      cases he
      rw [if_neg hq] at h1 ⊢
      refine h1.free hb (mem_append_left _ hmem) ?_ ⟨fuel, hfree⟩
      -- the block was allocated, so the list had one entry at most
      have hone : s.count ≤ 1 := by
        rcases hfit with hge | ⟨-, hone⟩
        · exact absurd (mallocInt_eq_zero hge ⟨fuel, hmalloc⟩) hq
        · exact hone
      have hlen := congrArg List.length h.table
      have hlen1 := congrArg List.length h1.table
      simp only [length_entries, length_append, length_singleton] at hlen hlen1
      omega

end

/-! ### Runs of calls -/

theorem sound_of_run {s0 s : Allocator} {live : List UInt32} {steps : List (Allocator × StdCall)}
    (hb : Ready s0.heap ns base) (hcount : s0.count = 0) (hrun : StdRun s0 s live steps)
    (hfit : ∀ x ∈ steps, Fits x.1 x.2) : Sound s0.heap ns base s live := by
  induction hrun with
  | start =>
    obtain ⟨runs, hr, hmap⟩ := hb.runs
    refine ⟨SameNodes.refl _, ⟨runs, [], hr, by simpa using hmap, rfl⟩, ?_⟩
    rw [hcount]
    rfl
  | call _ hv hret _ ih =>
    have h := ih fun x hx => hfit x (mem_append_left _ hx)
    exact h.call hb hv (hfit _ (mem_append_right _ mem_cons_self)) hret

/-- The loop of `kheap_shutdown` frees the blocks of the list. -/
theorem runs_shutdown (hb : Ready h₀ ns base) : ∀ (as : List Allocation) (h : Heap)
    (runs : List (Allocation × List NodePtr)), SameNodes h₀ h → Runs h ns runs →
    runs.map Prod.fst = base ++ as →
    ∃ h', (as.map Allocation.ptr).foldlM (kfree ns.length) h = some h' ∧
      ∃ runs', Runs h' ns runs' ∧ runs'.map Prod.fst = base := by
  intro as
  induction as with
  | nil =>
    intro h runs _ hr hmap
    exact ⟨h, rfl, runs, hr, by simpa using hmap⟩
  | cons a as ih =>
    intro h runs hn hr hmap
    have hc : h.Chained ns := hn.chained hb.chain
    have hs := hn.spaced hb.spaced
    have hl := hn.memLockFree.trans hb.unlockedFree
    have ha : a ∈ runs.map Prod.fst := by rw [hmap]; simp
    have hnd := hr.nodup_ptr hs
    rw [hmap, map_append] at hnd
    have hbase : a ∉ base := fun hmem =>
      disjoint_of_nodup_append hnd (mem_map_of_mem hmem) mem_cons_self
    obtain ⟨h1, hk⟩ := kfree_length hc hs hr hl ha
    obtain ⟨hn', runs1, hr1, hmap1⟩ := runs_kfree hc hs hr hl ha ⟨_, hk⟩
    rw [hmap, erase_append_right _ hbase, erase_cons_head] at hmap1
    obtain ⟨h', hrest, hend⟩ := ih h1 runs1 (hn.trans hn') hr1 hmap1
    refine ⟨h', ?_, hend⟩
    rw [map_cons, foldlM_cons, hk]
    exact hrest

/-- **The list along a run** holds the live pointers, each once, if every call fits, and
`kheap_shutdown` leaves the blocks from before. After a `free` with three blocks or more it does not
hold them. -/
theorem lists_of_run {h₀ : Heap} {ns : List NodePtr} {base : List Allocation}
    {s₀ s : Allocator} {live : List UInt32} {steps : List (Allocator × StdCall)}
    (hi : Initial h₀ ns) (hr : Reachable h₀ s₀.heap base) (hactive : h₀.heapActive = true)
    (halloc : h₀.memLockAlloc = false) (hfree : h₀.memLockFree = false) (hcount : s₀.count = 0)
    (hrun : StdRun s₀ s live steps) (hfit : ∀ x ∈ steps, Fits x.1 x.2) :
    Lists s live ∧
    (∃ h', Returns (kheapShutdown · s) h' ∧
      ∃ runs, Runs h' ns runs ∧ runs.map Prod.fst = base) ∧
    ∀ ptr ∈ live, 3 ≤ s.count → ∀ s', Returns (free · s ptr) s' → ¬Lists s' (live.erase ptr) := by
  have hb := Ready.of_reachable hi hr hactive halloc hfree
  have h := sound_of_run hb hcount hrun hfit
  obtain ⟨runs, as, hruns, hmap, hlive⟩ := h.blocks
  obtain ⟨h', hshut, hend⟩ := runs_shutdown hb as s.heap runs h.nodes hruns hmap
  refine ⟨h.lists hb, ⟨h', ⟨ns.length, ?_⟩, hend⟩, fun ptr hptr hthree s' hret => ?_⟩
  · simp only [kheapShutdown, h.table, ← hlive]
    exact hshut
  · exact not_lists_free (h.lists hb) (h.nodup hb) hptr hthree hret

/-! ### Three blocks -/

/-- Four free blocks at `0x1000`. -/
def rowHeap : Heap where
  node := fun p =>
    if p = 0x100 then ⟨0x1000, 1024, some 0x118, false, false, 4, 0⟩
    else if p = 0x118 then ⟨0x1400, 1024, some 0x130, false, false, 0, 0⟩
    else if p = 0x130 then ⟨0x1800, 1024, some 0x148, false, false, 0, 0⟩
    else ⟨0x1C00, 1024, none, false, false, 0, 0⟩
  memoryRegion := some 0x100
  totalRegionSize := 4096
  heapActive := true
  memLockAlloc := false
  memLockFree := false

abbrev rowNodes : List NodePtr := [0x100, 0x118, 0x130, 0x148]

theorem initial_rowHeap : Initial rowHeap rowNodes where
  chain := ⟨rfl, rfl, rfl, rfl, rfl⟩
  two := by decide
  spaced := spaced_of_addrs 0x1000 rfl
  size := by intro p hp; fin_cases hp <;> rfl
  free := by intro p hp; fin_cases hp <;> rfl
  first := by intro p hp; fin_cases hp <;> rfl
  used := by intro p hp; fin_cases hp <;> rfl

/-- An empty list. -/
def emptyAllocator : Allocator := ⟨rowHeap, fun _ => 0, 0⟩

/-- The state a sequence of calls leads to. -/
def runCalls (s : Allocator) (cs : List StdCall) : Allocator :=
  cs.foldl (fun s c => ((c.exec 4 s).getD (s, 0)).1) s

abbrev freedOne : Allocator := runCalls emptyAllocator [.malloc 10, .calloc 5 4, .free 0x1400]

/-- Two blocks, one of which is freed again. -/
theorem lists_two : ∃ steps,
    StdRun emptyAllocator freedOne [0x1800] steps ∧ Lists freedOne [0x1800] := by
  have h₀ : StdRun emptyAllocator emptyAllocator [] [] := .start
  have h1 := h₀.call (c := .malloc 10) trivial ⟨4, rfl⟩ (by decide)
  have h2 := h1.call (c := .calloc 5 4) trivial ⟨4, rfl⟩ (by decide)
  have hmem : (0x1400 : UInt32) ∈ [(0x1400 : UInt32), 0x1800] := by decide
  have h3 := h2.call (c := .free 0x1400) hmem ⟨4, rfl⟩ (by decide)
  refine ⟨_, h3, (lists_of_run initial_rowHeap .start rfl rfl rfl rfl h3 fun x hx => ?_).1⟩
  simp only [nil_append, cons_append, mem_cons, not_mem_nil, or_false] at hx
  rcases hx with rfl | rfl | rfl
  · exact .inl ⟨by decide, by decide⟩
  · exact .inl ⟨by decide, by decide⟩
  · exact Nat.le_refl 2

abbrev freedFirst : Allocator :=
  runCalls emptyAllocator [.malloc 10, .malloc 10, .malloc 10, .free 0x1400]

/-- The first of three blocks is freed: the third one is not in the list any more. -/
theorem not_lists_three : ∃ steps, StdRun emptyAllocator freedFirst [0x1800, 0x1C00] steps ∧
      ¬Lists freedFirst [0x1800, 0x1C00] := by
  have h₀ : StdRun emptyAllocator emptyAllocator [] [] := .start
  have h1 := h₀.call (c := .malloc 10) trivial ⟨4, rfl⟩ (by decide)
  have h2 := h1.call (c := .malloc 10) trivial ⟨4, rfl⟩ (by decide)
  have h3 := h2.call (c := .malloc 10) trivial ⟨4, rfl⟩ (by decide)
  have hmem : (0x1400 : UInt32) ∈ [(0x1400 : UInt32), 0x1800, 0x1C00] := by decide
  have h4 := h3.call (c := .free 0x1400) hmem ⟨4, rfl⟩ (by decide)
  refine ⟨_, h4, fun hl => ?_⟩
  have hlost : (0x1C00 : UInt32) ∉ entries freedFirst.ptrs freedFirst.count := by decide
  exact hlost ((hl.2 0x1C00).mpr (by decide))

end AthenX.KHeap
