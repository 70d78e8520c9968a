import AthenX.KHeap.Blocks

/-!
# Releasing any address

What `free` and `kfree` do for an address that need not be one of a live block. An address that is
not the start of a block of the list changes nothing; at the start of an allocated block, also
inside of a larger allocation, that block is cleared. No call marks a block.
-/

namespace AthenX.KHeap

open Linked List Option

/-- The same blocks are allocated, and the same ones start their allocations. -/
def SameBlocks (h h' : Heap) (ns : List NodePtr) : Prop :=
  ∀ q ∈ ns, (h'.node q).allocated = (h.node q).allocated ∧
    (h'.node q).firstBlock = (h.node q).firstBlock

/-- A node is as before, or it is free. -/
def Shrinks (h h' : Heap) : Prop :=
  ∀ q, h'.node q = h.node q ∨ (h'.node q).allocated = false

variable {bs cs : List Allocation} {c : Allocation} {r : UInt32}

section

variable {h0 h h' h'' : Heap} {ns run : List NodePtr} {base as : List Allocation} {a : Allocation}
  {q : NodePtr} {p : UInt32} {fuel : ℕ} {s s' : Allocator}

/-! ### The nodes of an allocation -/

theorem IsRun.exists_index (hr : IsRun h ns a run) :
    ∃ k, ∀ j < run.length, ns[k + j]? = run[j]? := by
  obtain ⟨pre, post, heq⟩ := hr.consecutive
  refine ⟨pre.length + 1, fun j hj => ?_⟩
  rw [show pre.length + 1 + j = pre.length + j + 1 by omega, ← List.getElem?_tail, ← heq,
    append_assoc, List.getElem?_append_right (by omega), Nat.add_sub_cancel_left,
    List.getElem?_append_left hj]

section

variable (hr : IsRun h ns a run) (hs : Spaced h ns)

include hr hs

/-- **The nodes of an allocation** are those whose blocks start inside of it. -/
theorem IsRun.mem_iff : q ∈ run ↔ q ∈ ns ∧ a.ptr.toNat ≤ (h.node q).addr.toNat ∧
      (h.node q).addr.toNat < a.ptr.toNat + blockSize * a.blocks := by
  obtain ⟨k, hk⟩ := hr.exists_index
  obtain ⟨base, hb⟩ := hs
  obtain ⟨first, hfirst, hptr⟩ := map_eq_some_iff.mp hr.ptr
  have hlen := hr.length
  have hpos : 0 < run.length := length_pos_of_mem (mem_of_mem_head? hfirst)
  have hstart : a.ptr.toNat = base + blockSize * k := by
    rw [← hptr]
    refine hb k first ?_
    rw [← Nat.add_zero k, hk 0 hpos, ← List.head?_eq_getElem?, hfirst]
  rw [hstart]
  constructor
  · intro hq
    obtain ⟨j, hj, rfl⟩ := getElem_of_mem hq
    have hget : ns[k + j]? = some run[j] := (hk j hj).trans (List.getElem?_eq_getElem hj)
    rw [hb _ _ hget, blockSize]
    exact ⟨mem_of_getElem? hget, by omega, by omega⟩
  · rintro ⟨hq, hle, hlt⟩
    obtain ⟨i, hi⟩ := mem_iff_getElem?.mp hq
    rw [hb i q hi, blockSize] at hle hlt
    obtain ⟨j, rfl⟩ : ∃ j, i = k + j := ⟨i - k, by omega⟩
    exact mem_of_getElem? ((hk j (by omega)).symm.trans hi)

theorem IsRun.exists_offset (hq : q ∈ run) :
    ∃ k < a.blocks, (h.node q).addr.toNat = a.ptr.toNat + blockSize * k := by
  obtain ⟨k, hk⟩ := hr.exists_index
  obtain ⟨base, hb⟩ := hs
  have hget : ∀ {j : ℕ} (hj : j < run.length), ns[k + j]? = some run[j] := fun hj =>
    (hk _ hj).trans (List.getElem?_eq_getElem hj)
  obtain ⟨first, hfirst, hptr⟩ := map_eq_some_iff.mp hr.ptr
  have hpos : 0 < run.length := length_pos_of_mem hq
  have hhead : run[0] = first := by
    rw [List.head?_eq_getElem?, List.getElem?_eq_getElem hpos] at hfirst
    exact some.inj hfirst
  have hstart := hb (k + 0) _ (hget hpos)
  rw [hhead, hptr] at hstart
  obtain ⟨j, hj, rfl⟩ := getElem_of_mem hq
  refine ⟨j, hr.length ▸ hj, ?_⟩
  rw [hb _ _ (hget hj), hstart, Nat.add_zero, Nat.mul_add, Nat.add_assoc]

theorem IsRun.head?_iff : run.head? = some q ↔ q ∈ ns ∧ (h.node q).addr = a.ptr := by
  obtain ⟨first, hfirst, hptr⟩ := map_eq_some_iff.mp hr.ptr
  have hmem : first ∈ ns :=
    mem_of_mem_tail (hr.consecutive.subset (mem_of_mem_head? hfirst))
  constructor
  · intro hq
    cases hfirst.symm.trans hq
    exact ⟨hmem, hptr⟩
  · rintro ⟨hq, haddr⟩
    rw [hfirst, hs.addr_inj hmem hq (hptr.trans haddr.symm)]

end

namespace Owns

theorem allocated_iff (ho : Owns h0 ns h as) (hs : Spaced h0 ns) (hq : q ∈ ns) :
    (h.node q).allocated = true ↔ ∃ a ∈ as, a.ptr.toNat ≤ (h0.node q).addr.toNat ∧
      (h0.node q).addr.toNat < a.ptr.toNat + blockSize * a.blocks := by
  obtain ⟨runs, hr, rfl⟩ := ho.runs
  have hs' := ho.nodes.spaced hs
  rw [hr.allocated q hq, ← ho.nodes.addr q]
  simp only [List.mem_map, exists_exists_and_eq_and]
  exact exists_congr fun x => and_congr_right fun hx =>
    ((hr.isRun x hx).mem_iff hs').trans (and_iff_right hq)

theorem firstBlock_iff (ho : Owns h0 ns h as) (hs : Spaced h0 ns) (hq : q ∈ ns) :
    (h.node q).firstBlock = true ↔ ∃ a ∈ as, (h0.node q).addr = a.ptr := by
  obtain ⟨runs, hr, rfl⟩ := ho.runs
  have hs' := ho.nodes.spaced hs
  rw [hr.first q hq, ← ho.nodes.addr q]
  simp only [List.mem_map, exists_exists_and_eq_and]
  exact exists_congr fun x => and_congr_right fun hx =>
    ((hr.isRun x hx).head?_iff hs').trans (and_iff_right hq)

/-- **With the same allocations, the same blocks are allocated.** -/
theorem sameBlocks (ho : Owns h0 ns h as) (ho' : Owns h0 ns h' as) (hs : Spaced h0 ns) :
    SameBlocks h h' ns := fun _ hq =>
  ⟨Bool.eq_iff_iff.mpr ((ho'.allocated_iff hs hq).trans (ho.allocated_iff hs hq).symm),
    Bool.eq_iff_iff.mpr ((ho'.firstBlock_iff hs hq).trans (ho.firstBlock_iff hs hq).symm)⟩

theorem not_sameBlocks (ho : Owns h0 ns h bs)
    (ho' : Owns h0 ns h' (bs ++ a :: cs)) (hb : Ready h0 ns base) : ¬SameBlocks h h' ns := by
  intro hsame
  obtain ⟨q, hq, haddr, -, hfirst⟩ := ho'.node (mem_append_right bs mem_cons_self)
  have hns := mem_of_mem_tail hq
  rw [(hsame q hns).2, ho.firstBlock_iff hb.spaced hns, ← ho'.nodes.addr, haddr] at hfirst
  obtain ⟨b, hbmem, hptr⟩ := hfirst
  have hnd := ho'.nodup hb
  rw [map_append] at hnd
  exact (nodup_append.mp hnd).2.2 b.ptr (mem_map_of_mem hbmem) a.ptr mem_cons_self hptr.symm

theorem numBlockUsed_pos (ho : Owns h0 ns h as) (hq : q ∈ ns) (hal : (h.node q).allocated = true) :
    0 < (h.node q).numBlockUsed.toNat := by
  obtain ⟨runs, hr, -⟩ := ho.runs
  obtain ⟨x, hx, hqx⟩ := (hr.allocated q hq).mp hal
  rw [hr.used x hx q hqx]
  exact length_pos_of_mem hqx

end Owns

/-! ### `kfree` and `free` -/

theorem kfree_eq_some_iff (hl : h.memLockFree = false) : kfree fuel h p = some h' ↔
    ∃ h'' r, sysFreeMemory fuel { h with memLockFree := true } p = some (h'', r) ∧
      { h'' with memLockFree := false } = h' := by
  simp [kfree, hl]

/-- `free` is `kfree`, as far as the heap is concerned. -/
theorem free_eq_some (hres : free fuel s p = some s') : kfree fuel s.heap p = some s'.heap := by
  obtain ⟨h', hk, rfl⟩ := map_eq_some_iff.mp hres
  exact hk

theorem exists_free (hres : kfree fuel s.heap p = some h') :
    ∃ s', free fuel s p = some s' ∧ s'.heap = h' :=
  ⟨_, by rw [free, hres]; rfl, rfl⟩

theorem unlocked_of_kfree (hres : kfree fuel h p = some h') : h.memLockFree = false := by
  by_contra hl
  rw [kfree, if_pos (by simpa using hl)] at hres
  cases hres

theorem sameNodes_kfree (hres : kfree fuel h p = some h') : SameNodes h h' := by
  have hl := unlocked_of_kfree hres
  obtain ⟨h'', r, hfree, rfl⟩ := (kfree_eq_some_iff hl).mp hres
  have hn := sameNodes_sysFreeMemory hfree
  exact ⟨hn.memoryRegion, hn.totalRegionSize, hn.heapActive, hn.memLockAlloc, hl.symm, hn.addr,
    hn.size, hn.next⟩

theorem kfree_mono {fuel' : ℕ} (hres : kfree fuel h p = some h') (hle : fuel ≤ fuel') :
    kfree fuel' h p = some h' := by
  have hl := unlocked_of_kfree hres
  obtain ⟨h'', r, hfree, he⟩ := (kfree_eq_some_iff hl).mp hres
  refine (kfree_eq_some_iff hl).mpr ⟨h'', r, ?_, he⟩
  cases hfind : findNode { h with memLockFree := true } p fuel h.memoryRegion with
  | none => simp only [sysFreeMemory, hfind] at hfree; cases hfree
  | some c =>
    simp only [sysFreeMemory, hfind] at hfree
    simp [sysFreeMemory, findNode_mono hfind hle, hfree]

theorem Owns.kfree_append (ho : Owns h0 ns h (bs ++ c :: cs)) (hb : Ready h0 ns base)
    (hres : KHeap.kfree fuel h c.ptr = some h') : Owns h0 ns h' (bs ++ cs) := by
  have ho' := ho.kfree hb (mem_append_right bs mem_cons_self) ⟨fuel, hres⟩
  -- the pointers are different, so it is not one of those in front
  have hnot : c ∉ bs := by
    have hnd := ho.nodup hb
    rw [map_append] at hnd
    exact fun hc => (nodup_append.mp hnd).2.2 c.ptr (mem_map_of_mem hc) c.ptr mem_cons_self rfl
  rwa [erase_append_right _ hnot, erase_cons_head] at ho'

theorem Owns.exists_kfree (ho : Owns h0 ns h as) (hb : Ready h0 ns base) (ha : a ∈ as) :
    ∃ h', KHeap.kfree (ns.length + 1) h a.ptr = some h' := by
  obtain ⟨runs, hr, rfl⟩ := ho.runs
  obtain ⟨h', hk⟩ := kfree_length (ho.chain hb) (ho.spaced hb) hr
    (ho.nodes.memLockFree.trans hb.unlockedFree) ha
  exact ⟨h', kfree_mono hk (Nat.le_succ _)⟩

theorem Owns.exists_free (ho : Owns h0 ns s.heap (bs ++ c :: cs)) (hb : Ready h0 ns base) :
    ∃ s', free (ns.length + 1) s c.ptr = some s' ∧ Owns h0 ns s'.heap (bs ++ cs) := by
  obtain ⟨h', hk⟩ := ho.exists_kfree hb (mem_append_right bs mem_cons_self)
  obtain ⟨s', hfree, rfl⟩ := KHeap.exists_free hk
  exact ⟨s', hfree, ho.kfree_append hb hk⟩

theorem findNode_of_notAddr : ∀ {l : List NodePtr} {cur : Option NodePtr},
    Chain h.next cur l → (∀ q ∈ l, (h.node q).addr ≠ p) →
    findNode h p (l.length + 1) cur = some none := by
  intro l
  induction l with
  | nil =>
    intro cur hc _
    rw [chain_nil.mp hc, findNode]
  | cons q l ih =>
    intro cur hc hne
    obtain ⟨rfl, hc⟩ := hc
    obtain ⟨hq, hne⟩ := forall_mem_cons.mp hne
    rw [findNode, if_pos hq]
    exact ih hc hne

/-- **An address at which no block starts** is not released. -/
theorem kfree_of_notAddr (hc : h.Chained ns) (hl : h.memLockFree = false)
    (hne : ∀ q ∈ ns, (h.node q).addr ≠ p) : kfree (ns.length + 1) h p = some h := by
  have hfind : findNode { h with memLockFree := true } p (ns.length + 1) h.memoryRegion =
      some none := findNode_of_notAddr hc hne
  rw [kfree_eq_some_iff hl]
  refine ⟨{ h with memLockFree := true }, p, ?_, by rw [← hl]⟩
  simp [sysFreeMemory, hfind]

/-! ### Clearing -/

theorem Shrinks.refl (h : Heap) : Shrinks h h := fun _ => .inl rfl

theorem Shrinks.trans (h1 : Shrinks h h') (h2 : Shrinks h' h'') : Shrinks h h'' := fun q => by
  rcases h2 q with heq | hfree
  · rw [heq]
    exact h1 q
  · exact .inr hfree

theorem shrinks_markFree : ∀ {k : ℕ} {cur : Option NodePtr} {h h' : Heap},
    markFree k cur h = some h' → Shrinks h h' := by
  intro k
  induction k with
  | zero =>
    intro cur h h' hres
    cases hres
    exact Shrinks.refl h
  | succ k ih =>
    intro cur h h' hres
    cases cur with
    | none => cases hres
    | some p =>
      refine Shrinks.trans (fun q => ?_) (ih hres)
      by_cases hq : q = p
      · subst hq
        exact .inr (by rw [Heap.modify_self])
      · exact .inl (Heap.modify_of_ne h _ hq)

/-- What `sys_free_memory` does: nothing, or it clears from an allocated node on. -/
theorem sysFreeMemory_cases (hres : sysFreeMemory fuel h p = some (h', r)) :
    (h' = h ∧ ∀ q, findNode h p fuel h.memoryRegion = some (some q) →
      (h.node q).allocated = false) ∨
      ∃ q, findNode h p fuel h.memoryRegion = some (some q) ∧
        markFree (h.node q).numBlockUsed.toNat (some q) h = some h' := by
  simp only [sysFreeMemory] at hres
  split at hres
  · cases hres
  · next hfind =>
    cases hres
    refine .inl ⟨rfl, fun q hq => ?_⟩
    cases hfind.symm.trans hq
  · next q hfind =>
    split at hres
    · obtain ⟨h'', hmark, he⟩ := map_eq_some_iff.mp hres
      cases he
      exact .inr ⟨q, hfind, hmark⟩
    · next hfree =>
      cases hres
      refine .inl ⟨rfl, fun q' hq' => ?_⟩
      cases hfind.symm.trans hq'
      simpa using hfree

theorem shrinks_sysFreeMemory (hres : sysFreeMemory fuel h p = some (h', r)) : Shrinks h h' := by
  rcases sysFreeMemory_cases hres with ⟨rfl, -⟩ | ⟨q, -, hmark⟩
  · exact Shrinks.refl _
  · exact shrinks_markFree hmark

theorem shrinks_kfree (hres : kfree fuel h p = some h') : Shrinks h h' := by
  obtain ⟨h'', r, hfree, rfl⟩ := (kfree_eq_some_iff (unlocked_of_kfree hres)).mp hres
  have hshrinks : Shrinks { h with memLockFree := true } h'' := shrinks_sysFreeMemory hfree
  exact fun q => hshrinks q

theorem markFree_self {k : ℕ} (hk : 0 < k) (hres : markFree k (some q) h = some h') :
    (h'.node q).allocated = false := by
  obtain ⟨k, rfl⟩ : ∃ n, k = n + 1 := ⟨k - 1, by omega⟩
  rw [markFree] at hres
  rcases shrinks_markFree hres q with heq | hfree
  · rw [heq, Heap.modify_self]
  · exact hfree

section

variable (hc : h.Chained ns) (hs : Spaced h ns) (hq : q ∈ ns)

include hc hs hq

theorem findNode_eq_of_addr {r : Option NodePtr}
    (hr : findNode h (h.node q).addr fuel h.memoryRegion = some r) : r = some q := by
  have hspec := findNode_spec hc hq (fun q' hq' heq => hs.addr_inj hq' hq heq)
    (Nat.le_max_left ns.length fuel)
  exact some.inj ((findNode_mono hr (Nat.le_max_right ns.length fuel)).symm.trans hspec)

/-- **An address at which a block starts** is released, whichever block of its allocation it is. -/
theorem sysFreeMemory_clears
    (hpos : (h.node q).allocated = true → 0 < (h.node q).numBlockUsed.toNat)
    (hres : sysFreeMemory fuel h (h.node q).addr = some (h', r)) :
    (h'.node q).allocated = false := by
  rcases sysFreeMemory_cases hres with ⟨rfl, hnone⟩ | ⟨q', hq', hmark⟩
  · cases hr : findNode h' (h'.node q).addr fuel h'.memoryRegion with
    | none => simp only [sysFreeMemory, hr] at hres; cases hres
    | some r =>
      rw [findNode_eq_of_addr hc hs hq hr] at hr
      exact hnone q hr
  · obtain rfl := some.inj (findNode_eq_of_addr hc hs hq hq')
    by_cases hal : (h.node q').allocated = true
    · exact markFree_self (hpos hal) hmark
    · rcases shrinks_markFree hmark q' with heq | hcleared
      · rw [heq]
        simpa using hal
      · exact hcleared

theorem kfree_clears (hpos : (h.node q).allocated = true → 0 < (h.node q).numBlockUsed.toNat)
    (hres : kfree fuel h (h.node q).addr = some h') : (h'.node q).allocated = false := by
  obtain ⟨h'', r, hfree, rfl⟩ := (kfree_eq_some_iff (unlocked_of_kfree hres)).mp hres
  have hclear : (h''.node q).allocated = false :=
    sysFreeMemory_clears (h := { h with memLockFree := true }) hc hs hq hpos hfree
  exact hclear

end

/-! ### Released blocks -/

/-- The block that starts at an address is free. -/
def Idle (h : Heap) (ns : List NodePtr) (p : UInt32) : Prop :=
  ∃ q ∈ ns, (h.node q).addr = p ∧ (h.node q).allocated = false

theorem Owns.idle_kfree (ho : Owns h0 ns h as) (hb : Ready h0 ns base) (ha : a ∈ as)
    (hres : KHeap.kfree fuel h a.ptr = some h') : Idle h' ns a.ptr := by
  obtain ⟨q, hq, haddr, -⟩ := ho.node ha
  have hns := mem_of_mem_tail hq
  refine ⟨q, hns, ((sameNodes_kfree hres).addr q).trans haddr, ?_⟩
  exact kfree_clears (ho.chain hb) (ho.spaced hb) hns (ho.numBlockUsed_pos hns) (haddr ▸ hres)

/-- **Releasing a block again** changes nothing. -/
theorem kfree_of_idle (hc : h.Chained ns) (hs : Spaced h ns) (hi : Idle h ns p)
    (hres : kfree fuel h p = some h') : h' = h := by
  obtain ⟨q, hq, rfl, hfree⟩ := hi
  have hl := unlocked_of_kfree hres
  obtain ⟨h'', r, hsys, rfl⟩ := (kfree_eq_some_iff hl).mp hres
  have hnothing : h'' = { h with memLockFree := true } := by
    rcases sysFreeMemory_cases hsys with ⟨heq, -⟩ | ⟨q', hfind, -⟩
    · exact heq
    · have hq' := findNode_eq_of_addr (h := { h with memLockFree := true }) hc hs hq hfind
      rw [hq'] at hfind
      simp only [sysFreeMemory, hfind, hfree, Bool.false_eq_true, if_false, Option.some.injEq,
        Prod.mk.injEq] at hsys
      exact hsys.1.symm
  rw [hnothing, ← hl]

end

end AthenX.KHeap
