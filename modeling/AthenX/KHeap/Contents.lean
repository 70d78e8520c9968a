import AthenX.KHeap.FirstFit
import AthenX.KHeap.Reallocate

/-!
# The contents of the blocks of `calloc` and `realloc`

`calloc` clears as many bytes as the product of its arguments has left in a `size_t`. `realloc`
copies `sizeof(ptr)`, four bytes. Both pass sizes to `kmalloc` that may be too large to be rounded
up, and wait forever if there is no room and the last block is allocated.
-/

namespace AthenX.KHeap

open Linked Bytes List Option

/-! ### The functions -/

/-- The allocator, and the contents of memory. -/
structure Store extends Allocator where
  bytes : Memory

namespace Store

/-- `calloc`. The product is a `size_t`. -/
def calloc (fuel : ℕ) (s : Store) (numElements elementSize : UInt32) : Option (Store × UInt32) :=
  let totalSize := numElements * elementSize
  (mallocInt fuel s.toAllocator totalSize).map fun (s', ptr) =>
    (⟨s', if ptr = 0 then s.bytes else clear ptr totalSize.toNat s.bytes⟩, ptr)

/-- `realloc`. The size of the old block is taken to be the size of a pointer. -/
def realloc (fuel : ℕ) (s : Store) (ptr newSize : UInt32) : Option (Store × UInt32) :=
  if ptr = 0 then (mallocInt fuel s.toAllocator newSize).map fun (s', p) => (⟨s', s.bytes⟩, p)
  else if newSize = 0 then (free fuel s.toAllocator ptr).map fun s' => (⟨s', s.bytes⟩, 0)
  else
    (mallocInt fuel s.toAllocator newSize).bind fun (s', newPtr) =>
      if newPtr = 0 then some (⟨s', s.bytes⟩, newPtr)
      else
        let oldSize : UInt32 := if newSize < 4 then newSize else 4
        let bytes := copy newPtr ptr oldSize.toNat s.bytes
        (free fuel s' ptr).map fun s'' => (⟨s'', bytes⟩, newPtr)

theorem calloc_toAllocator (fuel : ℕ) (s : Store) (numElements elementSize : UInt32) :
    (s.calloc fuel numElements elementSize).map (fun r => (r.1.toAllocator, r.2)) =
      KHeap.calloc fuel s.toAllocator numElements elementSize := by
  simp only [calloc, Option.map_map]
  exact Option.map_id'

theorem realloc_toAllocator (fuel : ℕ) (s : Store) (ptr newSize : UInt32) :
    (s.realloc fuel ptr newSize).map (fun r => (r.1.toAllocator, r.2)) =
      KHeap.realloc fuel s.toAllocator ptr newSize := by
  simp only [realloc, KHeap.realloc]
  split
  · rw [Option.map_map]
    exact map_id'
  split
  · rw [Option.map_map]
    rfl
  · rw [Option.map_bind]
    congr 1
    funext r
    show Option.map _ (if r.2 = 0 then _ else _) = if r.2 = 0 then _ else _
    split
    · rfl
    · rw [Option.map_map]
      rfl

end Store

/-- The blocks `live` are allocated, and there is room in the list of pointers. -/
structure InService (s : Store) (ns : List NodePtr) (live : List Allocation) : Prop
    extends Ready s.heap ns live where
  two : 2 ≤ ns.length
  size : ∀ q ∈ ns, (s.heap.node q).size.toNat = blockSize
  top : ∀ q ∈ ns, (s.heap.node q).addr.toNat + blockSize ≤ 2 ^ 32
  room : s.count < maxPtrs

/-- What a caller of `calloc` relies on: null, or as many zeros as the product. -/
def Clears (s : Store) (ns : List NodePtr) (numElements elementSize : UInt32) : Prop :=
  ∃ s' p, Returns (s.calloc · numElements elementSize) (s', p) ∧
    (p ≠ 0 → Fresh s.heap s'.heap ns p (numElements.toNat * elementSize.toNat) ∧
      ∀ k < numElements.toNat * elementSize.toNat, s'.bytes (p + UInt32.ofNat k) = 0)

/-- What a caller of `realloc` relies on: null and nothing changes, or a block that is large enough,
with the contents of the old one, which is free. -/
def Resizes (s : Store) (ns : List NodePtr) (a : Allocation) (newSize : UInt32) : Prop :=
  ∃ s' p, Returns (s.realloc · a.ptr newSize) (s', p) ∧
    (p = 0 ∧ (∀ q ∈ ns, Belongs s.heap a q → s'.heap.node q = s.heap.node q) ∧
        (∀ k < blockSize * a.blocks,
          s'.bytes (a.ptr + UInt32.ofNat k) = s.bytes (a.ptr + UInt32.ofNat k)) ∨
      p ≠ 0 ∧ Fresh s.heap s'.heap ns p newSize.toNat ∧
        (∀ k < min a.size.toInt.toNat newSize.toNat,
          s'.bytes (p + UInt32.ofNat k) = s.bytes (a.ptr + UInt32.ofNat k)) ∧
        ∀ q ∈ ns, Belongs s.heap a q → (s'.heap.node q).allocated = false)

variable {r : Heap × UInt32} {fuel fuel' : ℕ} {m n ptr : UInt32} {q : NodePtr} {b : Memory}

section

variable {h h' h'' : Heap} {ns : List NodePtr} {size p : UInt32} {s : Store}
  {live : List Allocation} {a : Allocation}

/-! ### `kmalloc` -/

theorem findFreeZone_mono {num : Int32} : ∀ {fuel fuel' : ℕ} {h : Heap}
    {cur : Option NodePtr}, findFreeZone fuel h cur size num = some r → fuel ≤ fuel' →
    findFreeZone fuel' h cur size num = some r := by
  intro fuel
  induction fuel with
  | zero => intro fuel' h cur hres; cases hres
  | succ fuel ih =>
    intro fuel' h cur hres hle
    obtain ⟨fuel', rfl⟩ : ∃ n, fuel' = n + 1 := ⟨fuel' - 1, by omega⟩
    cases cur with
    | none => exact hres
    | some start =>
      rw [findFreeZone] at hres ⊢
      split at hres
      · next hal =>
        rw [if_pos hal]
        exact ih hres (by omega)
      · next hal =>
        rw [if_neg hal]
        dsimp only at hres ⊢
        split at hres
        · next hnum => rw [if_pos hnum]; exact hres
        · next hnum => rw [if_neg hnum]; exact ih hres (by omega)

theorem kmalloc_mono (hres : kmalloc fuel h size = some r)
    (hle : fuel ≤ fuel') : kmalloc fuel' h size = some r := by
  rw [kmalloc] at hres ⊢
  split at hres
  · cases hres
  next ha =>
  rw [if_neg ha]
  split at hres
  · cases hres
  next hl =>
  rw [if_neg hl]
  obtain ⟨r', hr', he⟩ := map_eq_some_iff.mp hres
  refine map_eq_some_iff.mpr ⟨r', ?_, he⟩
  rw [sysAllocateMemory] at hr' ⊢
  split at hr'
  · next hge => rw [if_pos hge]; exact hr'
  · next hge =>
    rw [if_neg hge]
    split at hr'
    · cases hr'
    · exact findFreeZone_mono hr' hle

theorem mallocInt_mono {al : Allocator} {r : Allocator × UInt32}
    (hres : mallocInt fuel al size = some r) (hle : fuel ≤ fuel') :
    mallocInt fuel' al size = some r := by
  obtain ⟨x, hx, rfl⟩ := map_eq_some_iff.mp hres
  exact map_eq_some_iff.mpr ⟨x, kmalloc_mono hx hle, rfl⟩

section

variable (ha : h.heapActive = true) (hl : h.memLockAlloc = false) (hc : h.Chained ns)

include ha hl hc

/-- **`kmalloc` returns** if there is a block, the size is refused, or the last node is free. -/
theorem exists_returns_kmalloc_iff (hne : ns ≠ [])
    (hhead : ∀ p, ns.head? = some p → (h.node p).allocated = false) (size : UInt32) :
    (∃ r, Returns (kmalloc · h size) r) ↔ blockFor h ns size ≠ none ∨ h.totalRegionSize ≤ size ∨
        LastFree h ns := by
  have hcall : (∃ r, Returns (kmalloc · h size) r) ↔
      ∃ r, Returns (sysAllocateMemory · { h with memLockAlloc := true } size.toInt32) r := by
    constructor
    · rintro ⟨⟨h', p⟩, hret⟩
      obtain ⟨h'', hret', -⟩ := (returns_kmalloc_iff ha hl).mp hret
      exact ⟨_, hret'⟩
    · rintro ⟨⟨h', p⟩, hret⟩
      exact ⟨_, (returns_kmalloc_iff ha hl).mpr ⟨h', hret, rfl⟩⟩
  have hiff := exists_returns_sysAllocateMemory_iff (h := { h with memLockAlloc := true }) hc hne
    hhead size.toInt32
  have hfit : firstFit { h with memLockAlloc := true } (numBlocks size) ns.tail =
      firstFit h (numBlocks size) ns.tail := firstFit_congr (by exact fun q => rfl) _
  rw [← numBlocks, hfit] at hiff
  rw [hcall, hiff, blockFor]
  split
  · next hge => exact iff_of_true (.inl hge) (.inr (.inl hge))
  · exact or_left_comm

end

/-! ### Fresh blocks -/

theorem Fresh.le {n : ℕ} (hf : Fresh h h' ns p n) (ha : h.heapActive = true)
    (hl : h.memLockAlloc = false) (hc : h.Chained ns) (hs : Spaced h ns)
    (hsize : ∀ q ∈ ns, (h.node q).size.toNat = blockSize)
    (hret : Returns (kmalloc · h size) (h', p)) (hp : p ≠ 0) :
    n ≤ blockSize * numBlocks size := by
  obtain ⟨run, hrun, hcov, hmark⟩ := hf
  by_contra hlt
  obtain ⟨q, hq, hle, hlt'⟩ := hcov (blockSize * numBlocks size) (by omega)
  have hns := hrun.subset hq
  rw [hsize q hns] at hlt'
  have hgained : Gained h h' ns (p.toNat + blockSize * numBlocks size) :=
    ⟨q, hns, ⟨hle, hlt'⟩, hmark q hq⟩
  have := (gained_iff ha hl hc hs hret hp).mp hgained
  omega

theorem Fresh.top {n : ℕ} (hf : Fresh h h' ns p n)
    (hsize : ∀ q ∈ ns, (h.node q).size.toNat = blockSize)
    (htop : ∀ q ∈ ns, (h.node q).addr.toNat + blockSize ≤ 2 ^ 32) (hn : 0 < n) :
    p.toNat + n ≤ 2 ^ 32 := by
  obtain ⟨run, hrun, hcov, -⟩ := hf
  obtain ⟨q, hq, -, hlt⟩ := hcov (n - 1) (by omega)
  have hq' := htop q (hrun.subset hq)
  rw [hsize q (hrun.subset hq)] at hlt
  omega

theorem Fresh.of_shrinks {n : ℕ} (hf : Fresh h h'' ns p n) (hsh : Shrinks h' h'') :
    Fresh h h' ns p n := by
  obtain ⟨run, hrun, hcov, hmark⟩ := hf
  refine ⟨run, hrun, hcov, fun q hq => ⟨(hmark q hq).1, ?_⟩⟩
  have hal := (hmark q hq).2
  rcases hsh q with heq | hfree
  · rwa [← heq]
  · rw [hal] at hfree
    cases hfree

theorem numBlocks_pos_iff : 0 < numBlocks size ↔
    1 ≤ size.toNat ∧ size.toNat + 1023 ≤ 2147483647 := by
  constructor
  · intro hpos
    refine ⟨?_, ?_⟩
    · by_contra hz
      have h0 : size = 0 := UInt32.toNat_inj.mp (show size.toNat = 0 by omega)
      rw [h0, numBlocks_zero] at hpos
      omega
    · by_contra hbig
      rw [numBlocks_of_big (by omega)] at hpos
      omega
  · rintro ⟨h1, h2⟩
    rw [numBlocks_of_fits h1 h2]
    omega

namespace InService

section

variable (hs : InService s ns live)

include hs

theorem head_free (q : NodePtr) (hq : ns.head? = some q) : (s.heap.node q).allocated = false := by
  obtain ⟨runs, hr, -⟩ := hs.runs
  rw [← Bool.not_eq_true, hr.allocated q (mem_of_mem_head? hq)]
  rintro ⟨x, hx, hmem⟩
  exact hr.head_notMem hs.chain.nodup hq hx hmem

theorem exists_returns (size : UInt32) : (∃ r, Returns (kmalloc · s.heap size) r) ↔
      blockFor s.heap ns size ≠ none ∨ s.heap.totalRegionSize ≤ size ∨ LastFree s.heap ns :=
  exists_returns_kmalloc_iff hs.active hs.unlocked hs.chain
    (ne_nil_of_length_pos (Nat.lt_of_lt_of_le Nat.zero_lt_two hs.two)) hs.head_free size

theorem exists_returns_of_some (hb : blockFor s.heap ns size = some q) :
    ∃ h' p, Returns (kmalloc · s.heap size) (h', p) := by
  obtain ⟨⟨h', p⟩, hk⟩ := (hs.exists_returns size).mpr (.inl (by rw [hb]; exact some_ne_none q))
  exact ⟨h', p, hk⟩

theorem ptr_eq (hb : blockFor s.heap ns size = some q)
    (hk : Returns (kmalloc · s.heap size) (h', p)) :
    p = (s.heap.node q).addr ∧ p ≠ 0 := by
  have hp := kmalloc_blockFor hs.active hs.unlocked hs.chain hk
  rw [hb] at hp
  exact ⟨hp, hp ▸ addr_blockFor_ne_zero hs.spaced hb⟩

theorem null (hb : blockFor s.heap ns size = none)
    (hk : Returns (kmalloc · s.heap size) (h', p)) : p = 0 := by
  have hp := kmalloc_blockFor hs.active hs.unlocked hs.chain hk
  rwa [hb] at hp

theorem fresh (hpos : 1 ≤ size.toNat) (hmax : size.toNat + 1023 ≤ 2147483647)
    (hret : Returns (kmalloc · s.heap size) (h', p)) (hp : p ≠ 0) :
    Fresh s.heap h' ns p size.toNat :=
  delivers_of_le hs.active hs.unlocked hs.chain hs.spaced hs.size hpos hmax h' p hret hp

end

end InService

/-! ### `calloc` -/

theorem returns_calloc_iff {s' : Store} :
    Returns (s.calloc · m n) (s', p) ↔ ∃ h', Returns (kmalloc · s.heap (m * n)) (h', p) ∧
        s' = if p = 0 then ⟨{ s.toAllocator with heap := h' }, s.bytes⟩
          else ⟨⟨h', Function.update s.ptrs s.count p, s.count + 1⟩,
            clear p (m * n).toNat s.bytes⟩ := by
  simp only [Returns, Store.calloc, mallocInt, Option.map_map, Option.map_eq_some_iff,
    Function.comp_apply, Prod.exists]
  constructor
  · rintro ⟨fuel, h', q, hk, he⟩
    by_cases hq : q = 0
    · simp only [hq, if_true] at he
      obtain ⟨rfl, rfl⟩ := he
      exact ⟨h', ⟨fuel, hq ▸ hk⟩, by rw [if_pos rfl]⟩
    · simp only [hq, if_false] at he
      obtain ⟨rfl, rfl⟩ := he
      exact ⟨h', ⟨fuel, hk⟩, by rw [if_neg hq]⟩
  · rintro ⟨h', ⟨fuel, hk⟩, rfl⟩
    refine ⟨fuel, h', p, hk, ?_⟩
    by_cases hp : p = 0
    · simp [hp]
    · simp [hp]

theorem clears_iff_of_none (hs : InService s ns live) (hb : blockFor s.heap ns (m * n) = none) :
    Clears s ns m n ↔ s.heap.totalRegionSize ≤ m * n ∨ LastFree s.heap ns := by
  have hreturns := hs.exists_returns (m * n)
  rw [hb, or_iff_right (not_not.mpr rfl)] at hreturns
  rw [← hreturns]
  constructor
  · rintro ⟨s', p, hret, -⟩
    obtain ⟨h', hk, -⟩ := returns_calloc_iff.mp hret
    exact ⟨_, hk⟩
  · rintro ⟨⟨h', p⟩, hk⟩
    exact ⟨_, p, returns_calloc_iff.mpr ⟨h', hk, rfl⟩, fun hp => absurd (hs.null hb hk) hp⟩

theorem clears_iff_of_some (hs : InService s ns live)
    (hpos : m.toNat * n.toNat ≠ 0) (hb : blockFor s.heap ns (m * n) = some q) :
    Clears s ns m n ↔ m.toNat * n.toNat + 1023 ≤ 2147483647 := by
  have hmul : (m * n).toNat = m.toNat * n.toNat % 2 ^ 32 := UInt32.toNat_mul _ _
  constructor
  · rintro ⟨s', p, hret, hp⟩
    obtain ⟨h', hk, hs'⟩ := returns_calloc_iff.mp hret
    have hp0 := (hs.ptr_eq hb hk).2
    obtain ⟨hfresh, -⟩ := hp hp0
    rw [hs', if_neg hp0] at hfresh
    have hle := Fresh.le hfresh hs.active hs.unlocked hs.chain hs.spaced hs.size hk hp0
    have hblocks : 0 < numBlocks (m * n) := by
      by_contra hz
      rw [Nat.eq_zero_of_not_pos hz] at hle
      omega
    obtain ⟨h1, h2⟩ := numBlocks_pos_iff.mp hblocks
    -- the product has not wrapped, or the blocks would be too few
    rw [numBlocks_of_fits h1 h2, blockSize] at hle
    omega
  · intro hmax
    rw [Nat.mod_eq_of_lt (by omega)] at hmul
    obtain ⟨h', p, hk⟩ := hs.exists_returns_of_some hb
    have hp0 := (hs.ptr_eq hb hk).2
    have hfresh := hs.fresh (by omega) (by omega) hk hp0
    have htop := hfresh.top hs.size hs.top (by omega)
    refine ⟨_, p, returns_calloc_iff.mpr ⟨h', hk, rfl⟩, fun _ => ?_⟩
    rw [if_neg hp0, ← hmul]
    exact ⟨hfresh, fun k hk' => clear_apply htop hk'⟩

/-- **When `calloc` clears as many bytes as were asked for**: with a block, if the product can be
rounded up; without one, if the search ends. -/
theorem clears_iff {numElements elementSize : UInt32} (hs : InService s ns live)
    (hpos : numElements.toNat * elementSize.toNat ≠ 0) :
    Clears s ns numElements elementSize ↔
      match blockFor s.heap ns (numElements * elementSize) with
      | none => s.heap.totalRegionSize ≤ numElements * elementSize ∨ LastFree s.heap ns
      | some _ => numElements.toNat * elementSize.toNat + 1023 ≤ 2147483647 := by
  cases hb : blockFor s.heap ns (numElements * elementSize) with
  | none => exact clears_iff_of_none hs hb
  | some q => exact clears_iff_of_some hs hpos hb

/-! ### `realloc` -/

/-- What `realloc` of a block leads to, the list of pointers apart. -/
theorem exists_realloc_iff (hptr : ptr ≠ 0) (hn : n ≠ 0) :
    (∃ s' : Store, Returns (s.realloc · ptr n) (s', p) ∧ s'.heap = h' ∧
        s'.bytes = b) ↔
      ∃ h, Returns (kmalloc · s.heap n) (h, p) ∧
        (p = 0 ∧ h' = h ∧ b = s.bytes ∨
          p ≠ 0 ∧ Returns (kfree · h ptr) h' ∧
            b = copy p ptr (min n.toNat 4) s.bytes) := by
  have hold : (if n < 4 then n else 4 : UInt32).toNat = min n.toNat 4 := by
    split
    · next hlt =>
      have : n.toNat < 4 := UInt32.lt_iff_toNat_lt.mp hlt
      omega
    · next hlt =>
      have : ¬n.toNat < 4 := fun h => hlt (UInt32.lt_iff_toNat_lt.mpr h)
      show 4 = min n.toNat 4
      omega
  constructor
  · rintro ⟨s', ⟨fuel, hres⟩, rfl, rfl⟩
    simp only [Store.realloc, if_neg hptr, if_neg hn] at hres
    obtain ⟨⟨s1, q⟩, hmalloc, hres⟩ := bind_eq_some_iff.mp hres
    obtain ⟨⟨h, q'⟩, hk, he⟩ := map_eq_some_iff.mp hmalloc
    by_cases hq : q' = 0
    · simp only [hq] at he
      obtain ⟨rfl, rfl⟩ := he
      cases hres
      exact ⟨h, ⟨fuel, hq ▸ hk⟩, .inl ⟨rfl, rfl, rfl⟩⟩
    · simp only [hq] at he
      obtain ⟨rfl, rfl⟩ := he
      rw [if_neg hq, hold] at hres
      obtain ⟨s2, hfree, he⟩ := map_eq_some_iff.mp hres
      cases he
      exact ⟨h, ⟨fuel, hk⟩, .inr ⟨hq, ⟨fuel, free_eq_some hfree⟩, rfl⟩⟩
  · rintro ⟨h, ⟨fuel, hk⟩, ⟨rfl, rfl, rfl⟩ | ⟨hp, ⟨fuel', hfree⟩, rfl⟩⟩
    · refine ⟨⟨{ s.toAllocator with heap := h' }, s.bytes⟩, ⟨fuel, ?_⟩, rfl, rfl⟩
      simp only [Store.realloc, if_neg hptr, if_neg hn, mallocInt, hk]
      rfl
    · -- one bound for both calls
      have hk' := kmalloc_mono hk (Nat.le_max_left fuel fuel')
      have hfree' := kfree_mono hfree (Nat.le_max_right fuel fuel')
      obtain ⟨s2, hs2, rfl⟩ := KHeap.exists_free
        (s := ⟨h, Function.update s.ptrs s.count p, s.count + 1⟩) hfree'
      refine ⟨⟨s2, copy p ptr (min n.toNat 4) s.bytes⟩, ⟨max fuel fuel', ?_⟩, rfl, rfl⟩
      simp only [Store.realloc, if_neg hptr, if_neg hn, mallocInt, hk', map_some, if_neg hp,
        bind_some, hold, hs2]

/-- The two blocks of `realloc`: the new one is fresh also after the release, and they are apart. -/
theorem InService.release (hs : InService s ns live) (ha : a ∈ live)
    (hpos : 1 ≤ n.toNat) (hmax : n.toNat + 1023 ≤ 2147483647)
    (hk : Returns (kmalloc · s.heap n) (h', p)) (hp : p ≠ 0) :
    (∃ h'', Returns (kfree · h' a.ptr) h'' ∧ Fresh s.heap h'' ns p n.toNat ∧
      ∀ q ∈ ns, Belongs s.heap a q → (h''.node q).allocated = false) ∧
    0 < a.blocks ∧ a.ptr.toNat + blockSize * a.blocks ≤ 2 ^ 32 ∧
    (p.toNat + n.toNat ≤ a.ptr.toNat ∨ a.ptr.toNat + blockSize * a.blocks ≤ p.toNat) := by
  obtain ⟨runs, hr, rfl⟩ := hs.runs
  obtain ⟨x, hx, rfl⟩ := mem_map.mp ha
  have hrunx := hr.isRun x hx
  obtain ⟨start, rest, hlt, hf, rfl⟩ := kmalloc_found hs.active hs.unlocked hs.chain hk hp
  have hint : n.toInt32.toInt = n.toNat := by rw [toInt_toInt32, if_pos (by omega)]
  obtain ⟨run, hrun, hmark, hfree, hnum⟩ := hf.isRun ⟨by omega, by omega, by simpa using hlt⟩
  have hn := hmark.nodes
  obtain ⟨h'', hfree', hcl⟩ := kfree_cleared (hn.chained hs.chain)
    (hn.spaced hs.spaced) (hr.mark hmark hrun hnum hfree) (hn.memLockFree.trans hs.unlockedFree)
    (mem_append_left _ hx)
  refine ⟨⟨h'', ⟨_, hfree'⟩, ?_, fun q hq hbel => ?_⟩, hrunx.blocks_pos,
    hrunx.top hs.spaced hs.top, ?_⟩
  · -- the fresh nodes were free, so the release does not clear them
    obtain ⟨run', hrun', hcov, hmark'⟩ := hs.fresh hpos hmax hk hp
    refine ⟨run', hrun', hcov, fun q hq => ⟨(hmark' q hq).1, ?_⟩⟩
    have hqx : q ∉ x.2 := by
      intro hqx
      have hal := (hr.allocated q (hrun'.subset hq)).mpr ⟨x, hx, hqx⟩
      rw [(hmark' q hq).1] at hal
      cases hal
    rw [hcl.frame q hqx]
    exact (hmark' q hq).2
  · exact hcl.allocated q ((hrunx.belongs_iff hs.spaced hq).mp hbel)
  · have hap := hrun.apart hrunx hs.spaced (hr.disjoint_of_free hx hrun hfree)
    have hle := toNat_le_blocks ⟨(s.heap.node start).addr, n.toInt32⟩
    dsimp only at hap hle
    omega

theorem copy_four {m n k : ℕ} (hptop : p.toNat + n ≤ 2 ^ 32)
    (htop : ptr.toNat + blockSize * m ≤ 2 ^ 32) (hm : 0 < m)
    (hap : p.toNat + n ≤ ptr.toNat ∨ ptr.toNat + blockSize * m ≤ p.toNat) (hk : k < n) :
    copy p ptr (min n 4) b (p + UInt32.ofNat k) =
      if k < 4 then b (ptr + UInt32.ofNat k) else b (p + UInt32.ofNat k) := by
  rw [blockSize] at htop hap
  split
  · exact copy_apply (by omega) (by omega) (by omega) (by omega)
  · refine write_of_lt (by omega) ?_
    rw [toNat_add_ofNat (by omega)]
    omega

theorem resizes_iff_of_none (hs : InService s ns live) (ha : a ∈ live) (hn : n ≠ 0)
    (hb : blockFor s.heap ns n = none) :
    Resizes s ns a n ↔ s.heap.totalRegionSize ≤ n ∨ LastFree s.heap ns := by
  have ha0 : a.ptr ≠ 0 := hs.toReady.owns.ptr_ne_zero hs.toReady ha
  have hreturns := hs.exists_returns n
  rw [hb, or_iff_right (not_not.mpr rfl)] at hreturns
  rw [← hreturns]
  constructor
  · rintro ⟨s', p, hret, -⟩
    obtain ⟨h', hk, -⟩ := (exists_realloc_iff ha0 hn).mp ⟨s', hret, rfl, rfl⟩
    exact ⟨_, hk⟩
  · rintro ⟨⟨h', p⟩, hk⟩
    obtain rfl := hs.null hb hk
    obtain ⟨s', hret, rfl, hbytes⟩ :=
      (exists_realloc_iff ha0 hn).mpr ⟨h', hk, .inl ⟨rfl, rfl, rfl⟩⟩
    obtain ⟨hsp, -⟩ := kmalloc_spec hs.active hs.unlocked hs.chain hk
    refine ⟨s', 0, hret, .inl ⟨rfl, fun q hq hbel => hsp q ?_, fun k _ => by rw [hbytes]⟩⟩
    obtain ⟨runs, hr, rfl⟩ := hs.runs
    obtain ⟨x, hx, rfl⟩ := mem_map.mp ha
    have hqx := ((hr.isRun x hx).belongs_iff hs.spaced hq).mp hbel
    exact (hr.allocated q hq).mpr ⟨x, hx, hqx⟩

theorem resizes_iff_of_some (hs : InService s ns live) (ha : a ∈ live)
    (hn : n ≠ 0) (hb : blockFor s.heap ns n = some q) :
    Resizes s ns a n ↔ n.toNat + 1023 ≤ 2147483647 ∧
      ∀ k, 4 ≤ k → k < min a.size.toInt.toNat n.toNat →
        s.bytes ((s.heap.node q).addr + UInt32.ofNat k) = s.bytes (a.ptr + UInt32.ofNat k) := by
  have hpos : 1 ≤ n.toNat := Nat.one_le_iff_ne_zero.mpr fun h0 => hn (UInt32.toNat_inj.mp h0)
  have ha0 : a.ptr ≠ 0 := hs.toReady.owns.ptr_ne_zero hs.toReady ha
  constructor
  · rintro ⟨s', p, hret, hcase⟩
    obtain ⟨h', hk, hcall⟩ := (exists_realloc_iff ha0 hn).mp ⟨s', hret, rfl, rfl⟩
    obtain ⟨hptr, hp⟩ := hs.ptr_eq hb hk
    obtain ⟨-, ⟨fuel, hfree⟩, hbytes⟩ := hcall.resolve_left fun hnull => hp hnull.1
    obtain ⟨-, hfresh, hkept, -⟩ := hcase.resolve_left fun hnull => hp hnull.1
    have hfresh' := hfresh.of_shrinks (shrinks_kfree hfree)
    have hle := hfresh'.le hs.active hs.unlocked hs.chain hs.spaced hs.size hk hp
    have hmax : n.toNat + 1023 ≤ 2147483647 := by
      refine (numBlocks_pos_iff.mp (Nat.pos_of_ne_zero fun hz => ?_)).2
      rw [hz] at hle
      omega
    refine ⟨hmax, fun k hk4 hkn => ?_⟩
    obtain ⟨-, hblocks, htop, hap⟩ := hs.release ha hpos hmax hk hp
    have hbyte := copy_four (b := s.bytes) (hfresh'.top hs.size hs.top hpos) htop hblocks hap
      (Nat.lt_of_lt_of_le hkn (Nat.min_le_right _ _))
    rw [if_neg (by omega), ← hbytes, hkept k hkn, hptr] at hbyte
    exact hbyte.symm
  · rintro ⟨hmax, hkept⟩
    obtain ⟨h', p, hk⟩ := hs.exists_returns_of_some hb
    obtain ⟨hptr, hp⟩ := hs.ptr_eq hb hk
    obtain ⟨⟨h'', hfree, hfresh, hold⟩, hblocks, htop, hap⟩ := hs.release ha hpos hmax hk hp
    obtain ⟨s', hret, rfl, hbytes⟩ :=
      (exists_realloc_iff ha0 hn).mpr ⟨h', hk, .inr ⟨hp, hfree, rfl⟩⟩
    refine ⟨s', p, hret, .inr ⟨hp, hfresh, fun k hkn => ?_, hold⟩⟩
    have hkn' := Nat.lt_of_lt_of_le hkn (Nat.min_le_right _ _)
    rw [hbytes, copy_four (hfresh.top hs.size hs.top hpos) htop hblocks hap hkn']
    split
    · rfl
    · rw [hptr]
      exact hkept k (by omega) hkn

/-- **When `realloc` keeps the contents**: it copies four bytes, so the others must be there
already. -/
theorem resizes_iff {n : UInt32} (hs : InService s ns live) (ha : a ∈ live) (hn : n ≠ 0) :
    Resizes s ns a n ↔
      match blockFor s.heap ns n with
      | none => s.heap.totalRegionSize ≤ n ∨ LastFree s.heap ns
      | some q => n.toNat + 1023 ≤ 2147483647 ∧
          ∀ k, 4 ≤ k → k < min a.size.toInt.toNat n.toNat →
            s.bytes ((s.heap.node q).addr + UInt32.ofNat k) = s.bytes (a.ptr + UInt32.ofNat k) := by
  cases hb : blockFor s.heap ns n with
  | none => exact resizes_iff_of_none hs ha hn hb
  | some q => exact resizes_iff_of_some hs ha hn hb

theorem InService.of_usage {h0 : Heap} {stop : UInt32} (hi : Initial h0 ns) (hp : Placed h0 ns stop)
    (hu : Usage h0 s.heap live) (ha : h0.heapActive = true) (hl : h0.memLockAlloc = false)
    (hf : h0.memLockFree = false) (hcount : s.count < maxPtrs) : InService s ns live := by
  obtain ⟨runs, hr, hlive⟩ := hu.exists_recorded hi
  have hn := hr.nodes
  exact ⟨⟨hr.chain hi, hr.spaced hi, ⟨runs, hr.marks, hlive⟩, hn.heapActive.trans ha,
    hn.memLockAlloc.trans hl, hn.memLockFree.trans hf⟩, hi.two,
    fun q hq => by rw [hn.size]; exact hi.size q hq, (hp.congr hn).top, hcount⟩

end

/-- A block of 100 bytes at `0x1400`, different from the bytes behind it. -/
def filledStore : Store :=
  ⟨⟨busyHeap [100], fun _ => 0x1400, 1⟩, fun a => if a < 0x1800 then 1 else 0⟩

theorem inService_filledStore : InService filledStore rowNodes [⟨0x1400, 100⟩] := by
  have hu : Usage rowHeap (busyHeap [100]) [⟨0x1400, 100⟩] :=
    Usage.start.live ⟨5, rfl⟩ (by decide) (by decide)
  exact .of_usage initial_rowHeap placed_rowHeap hu rfl rfl rfl (by decide)

/-- Ten elements of ten bytes. -/
theorem clears_filledStore : Clears filledStore rowNodes 10 10 :=
  (clears_iff inService_filledStore (by decide)).mpr (show 10 * 10 + 1023 ≤ 2147483647 by decide)

/-- Of `0x40000001` elements of four bytes, the product is four. -/
theorem not_clears_filledStore : InService filledStore rowNodes [⟨0x1400, 100⟩] ∧
      ¬Clears filledStore rowNodes 0x40000001 4 := by
  have hs := inService_filledStore
  refine ⟨hs, ?_⟩
  rw [clears_iff_of_some hs (by decide) (show _ = some 0x130 by decide)]
  decide

/-- Three bytes are all copied. -/
theorem resizes_filledStore : Resizes filledStore rowNodes ⟨0x1400, 100⟩ 3 :=
  (resizes_iff inService_filledStore mem_cons_self (by decide)).mpr
    ⟨by decide, fun k h1 h2 => absurd (Nat.lt_of_lt_of_le h2 (Nat.min_le_right _ _))
      (Nat.not_lt.mpr (Nat.le_of_succ_le h1))⟩

/-- Of 100 bytes the fifth is not copied. -/
theorem not_resizes_filledStore : InService filledStore rowNodes [⟨0x1400, 100⟩] ∧
      ¬Resizes filledStore rowNodes ⟨0x1400, 100⟩ 200 := by
  have hs := inService_filledStore
  refine ⟨hs, ?_⟩
  rw [resizes_iff_of_some hs mem_cons_self (by decide) (show _ = some 0x130 by decide)]
  rintro ⟨-, hkept⟩
  exact absurd (hkept 4 le_rfl (by decide)) (by decide)

end AthenX.KHeap
