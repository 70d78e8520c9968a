import AthenX.KHeap.Release

/-!
# The search for free nodes: what it finds, and when it ends

At a free node `find_free_zone` counts the free nodes from there on, and when they are too few it
goes on behind the node that ended the count. Nothing is missed, so the search is a first fit. It
moves on only if there is a next node: an allocated last node is looked at again and again.
-/

namespace AthenX.KHeap

open Linked List

/-! ### Runs of free nodes -/

/-- From position `i` on there are `n` free nodes. -/
def FreeRun (h : Heap) (n : ℕ) (l : List NodePtr) (i : ℕ) : Prop :=
  i + n ≤ l.length ∧ ∀ q ∈ (l.drop i).take n, (h.node q).allocated = false

/-- The earliest such position. -/
def FirstRun (h : Heap) (n : ℕ) (l : List NodePtr) (i : ℕ) : Prop :=
  FreeRun h n l i ∧ ∀ j < i, ¬FreeRun h n l j

section

variable {h h' h1 : Heap} {n i : ℕ} {l rest : List NodePtr} {q start : NodePtr}
  {cur : Option NodePtr} {size : UInt32} {num : Int32}

theorem startsFree_iff (hn : 1 ≤ n) : StartsFree h n l ↔ FreeRun h n l 0 := by
  rw [StartsFree, FreeRun, Nat.max_eq_left hn, Nat.zero_add, drop_zero]

theorem freeRun_cons_succ : FreeRun h n (q :: l) (i + 1) ↔ FreeRun h n l i := by
  rw [FreeRun, length_cons]
  exact and_congr_left fun _ => by omega

theorem not_freeRun_nil (hn : 1 ≤ n) : ¬FreeRun h n [] i := fun hr => by
  have hlen := hr.1
  simp only [length_nil] at hlen
  omega

/-- `firstFit` finds the earliest run. -/
theorem firstRun_of_firstFit (hn : 1 ≤ n) : ∀ {l : List NodePtr}, firstFit h n l = some q →
    ∃ i rest, FirstRun h n l i ∧ l.drop i = q :: rest := by
  intro l
  induction l with
  | nil => intro hq; cases hq
  | cons p l ih =>
    intro hq
    rw [firstFit] at hq
    split at hq
    · next hfit =>
      cases hq
      exact ⟨0, l, ⟨(startsFree_iff hn).mp hfit, fun j hj => absurd hj (by omega)⟩, rfl⟩
    · next hnot =>
      obtain ⟨i, rest, hfirst, hdrop⟩ := ih hq
      refine ⟨i + 1, rest, ⟨freeRun_cons_succ.mpr hfirst.1, fun j hj => ?_⟩, hdrop⟩
      cases j with
      | zero => exact fun hr => hnot ((startsFree_iff hn).mpr hr)
      | succ j => exact fun hr => hfirst.2 j (by omega) (freeRun_cons_succ.mp hr)

theorem firstFit_eq_none_iff (hn : 1 ≤ n) :
    ∀ {l : List NodePtr}, firstFit h n l = none ↔ ∀ i, ¬FreeRun h n l i := by
  intro l
  induction l with
  | nil => exact iff_of_true rfl fun i => not_freeRun_nil hn
  | cons p l ih =>
    rw [firstFit]
    split
    · next hfit =>
      exact iff_of_false (by simp) fun hno => hno 0 ((startsFree_iff hn).mp hfit)
    · next hnot =>
      rw [ih]
      constructor
      · intro hno i
        cases i with
        | zero => exact fun hr => hnot ((startsFree_iff hn).mpr hr)
        | succ i => exact fun hr => hno i (freeRun_cons_succ.mp hr)
      · exact fun hno i hr => hno (i + 1) (freeRun_cons_succ.mpr hr)

/-! ### The whole search -/

theorem Found.eq_drop {i : ℕ} {rest' : List NodePtr} (hf : Found h h' l num start rest)
    (hnd : l.Nodup) (hdrop : l.drop i = start :: rest') : start :: rest = l.drop i := by
  -- both are tails of the list that start with `start`, which is in it once
  obtain ⟨pre, rfl⟩ := hf.tail
  have hi : i = pre.length := by
    have hget : (pre ++ start :: rest)[i]? = some start := by
      rw [← List.head?_drop, hdrop, List.head?_cons]
    refine (List.getElem?_inj (List.getElem?_eq_some_iff.mp hget).1 hnd).mp ?_
    rw [hget, List.getElem?_append_right (le_refl _), Nat.sub_self, List.getElem?_cons_zero]
  rw [hi, drop_left]

/-- **The search is a first fit**: it marks the earliest run of `n` free nodes only, and returns its
first address; or there is none, and it returns null. -/
theorem findFreeZone_firstRun {r : UInt32} (hl : Chain h.next cur l) (hnum : 1 ≤ num.toInt)
    (hret : Returns (findFreeZone · h cur size num) (h', r)) :
    (∃ i start, FirstRun h num.toInt.toNat l i ∧ l[i]? = some start ∧ r = (h.node start).addr ∧
      Marked h h' ((l.drop i).take num.toInt.toNat) num) ∨
    (∀ i, ¬FreeRun h num.toInt.toNat l i) ∧ r = 0 ∧ Marked h h' [] num := by
  have hn : 1 ≤ num.toInt.toNat := by omega
  obtain ⟨fuel, hret⟩ := hret
  rcases (findFreeZone_found hl hret).2 with
    ⟨hnone, hr, hsame, hm⟩ | ⟨start, rest, hsome, hf, hr, -⟩
  · refine .inr ⟨(firstFit_eq_none_iff hn).mp hnone, hr, hsame, fun q _ => hm q, ?_, ?_, ?_⟩ <;>
      exact fun q hq => nomatch hq
  · obtain ⟨i, rest', hfirst, hdrop⟩ := firstRun_of_firstFit hn hsome
    refine .inl ⟨i, start, hfirst, ?_, hr, hf.eq_drop hl.nodup hdrop ▸ hf.marked⟩
    rw [← List.head?_drop, hdrop, List.head?_cons]

end

/-- In a list of three nodes, two blocks are found behind the first node. -/
theorem findFreeZone_firstRun_sampleHeap : ∃ h' r i,
    Returns (findFreeZone · (sampleHeap 4096) (some 0x118) 1500 2) (h', r) ∧
      FirstRun (sampleHeap 4096) 2 [0x118, 0x130] i := by
  have hchain : Chain (sampleHeap 4096).next (some 0x118) [0x118, 0x130] := ⟨rfl, rfl, rfl⟩
  have hfit : StartsFree (sampleHeap 4096) (2 : Int32).toInt.toNat [0x118, 0x130] := by decide
  obtain ⟨h', -, -, -, hturn⟩ := exists_found 1500 hchain hfit
  have hret : Returns (findFreeZone · (sampleHeap 4096) (some 0x118) 1500 2)
      (h', ((sampleHeap 4096).node 0x118).addr) := ⟨1, hturn 0⟩
  rcases findFreeZone_firstRun hchain (by decide) hret with ⟨i, -, hfirst, -⟩ | ⟨hno, -⟩
  · exact ⟨h', _, i, hret, hfirst⟩
  · exact absurd ((startsFree_iff (by decide)).mp hfit) (hno 0)

/-! ### When the search ends -/

section

variable {h : Heap} {l : List NodePtr} {cur : Option NodePtr} {size : UInt32} {num : Int32}

theorem exists_returns_findFreeZone_iff (size : UInt32) (num : Int32) (hl : Chain h.next cur l) :
    (∃ r, Returns (findFreeZone · h cur size num) r) ↔ Finishes h num l := by
  constructor
  · rintro ⟨r, fuel, hres⟩
    exact (findFreeZone_ends size hl).1 r hres
  · intro hends
    obtain ⟨r, hres⟩ := (findFreeZone_ends size hl).2 (Nat.lt_succ_self l.length) hends
    exact ⟨r, _, hres⟩

end

/-! ### Allocations -/

/-- The heaps that calls of `sys_allocate_memory` and `sys_free_memory` lead to. -/
inductive CallReachable (h₀ : Heap) : Heap → Prop
  | start : CallReachable h₀ h₀
  | allocate {h h' : Heap} {size : Int32} {p : UInt32} : CallReachable h₀ h →
      Returns (sysAllocateMemory · h size) (h', p) → CallReachable h₀ h'
  | free {h h' : Heap} {addr r : UInt32} : CallReachable h₀ h →
      Returns (sysFreeMemory · h addr) (h', r) → CallReachable h₀ h'

/-- The last node is free: a search that gets there comes to an end. -/
abbrev LastFree (h : Heap) (ns : List NodePtr) : Prop :=
  ∃ q, ns.getLast? = some q ∧ (h.node q).allocated = false

/-- `sys_allocate_memory` returns, and null if no run behind the first node is long enough. -/
def Ends (h : Heap) (ns : List NodePtr) (size : Int32) : Prop :=
  ∃ h' p, Returns (sysAllocateMemory · h size) (h', p) ∧
    ((∀ i, ¬FreeRun h (blocksNeeded size) ns.tail i) → p = 0)

section

variable {h₀ h h' : Heap} {ns : List NodePtr} {size : Int32}

theorem allocated_of_sysAllocateMemory {fuel : ℕ} {r : UInt32}
    (hc : h.Chained ns) (hres : sysAllocateMemory fuel h size = some (h', r))
    {q : NodePtr} (hq : (h'.node q).allocated = true) :
    (h.node q).allocated = true ∨ q ∈ ns.tail := by
  rcases (sysAllocateMemory_spec hc hres).2 with ⟨-, -, hm⟩ | ⟨start, rest, -, hf, -⟩
  · exact .inl ((hm q).1.symm.trans hq)
  · by_cases hrun : q ∈ (start :: rest).take ((size + 1023) / 1024 : Int32).toInt.toNat
    · exact .inr (hf.tail.subset (mem_of_mem_take hrun))
    · exact .inl ((hf.marked.frame q hrun).1.symm.trans hq)

theorem chain_of_callReachable (hc : h₀.Chained ns)
    (hfree : ∀ p ∈ ns, (h₀.node p).allocated = false) (hr : CallReachable h₀ h) :
    h.Chained ns ∧
      ∀ p, ns.head? = some p → (h.node p).allocated = false := by
  induction hr with
  | start => exact ⟨hc, fun p hp => hfree p (mem_of_mem_head? hp)⟩
  | allocate _ hret ih =>
    obtain ⟨fuel, hres⟩ := hret
    have hn := sameNodes_sysAllocateMemory ih.1 hres
    refine ⟨hn.chained ih.1, fun p hp => ?_⟩
    by_contra halloc
    rw [Bool.not_eq_false] at halloc
    rcases allocated_of_sysAllocateMemory ih.1 hres halloc with hold | htail
    · rw [ih.2 p hp] at hold
      cases hold
    · -- a node is in the list once
      cases ns with
      | nil => cases hp
      | cons first l =>
        cases hp
        exact (nodup_cons.mp ih.1.nodup).1 htail
  | free _ hret ih =>
    obtain ⟨fuel, hres⟩ := hret
    have hn := sameNodes_sysFreeMemory hres
    refine ⟨hn.chained ih.1, fun p hp => ?_⟩
    by_contra halloc
    rw [Bool.not_eq_false] at halloc
    rcases shrinks_sysFreeMemory hres p with heq | hfree
    · rw [heq, ih.2 p hp] at halloc
      cases halloc
    · rw [hfree] at halloc
      cases halloc

/-- **A call of `sys_allocate_memory` returns** if the size is refused, there is a fit, or the last
node is free. -/
theorem exists_returns_sysAllocateMemory_iff (hc : h.Chained ns) (hne : ns ≠ [])
    (hhead : ∀ p, ns.head? = some p → (h.node p).allocated = false) (size : Int32) :
    (∃ r, Returns (sysAllocateMemory · h size) r) ↔ h.totalRegionSize ≤ size.toUInt32 ∨
        firstFit h ((size + 1023) / 1024 : Int32).toInt.toNat ns.tail ≠ none ∨
        LastFree h ns := by
  by_cases hge : h.totalRegionSize ≤ size.toUInt32
  · exact iff_of_true ⟨(h, 0), 0, by simp [sysAllocateMemory, if_pos hge]⟩ (.inl hge)
  cases ns with
  | nil => exact absurd rfl hne
  | cons first l =>
    obtain ⟨hreg, htail⟩ := hc
    have hcall : ∀ fuel, sysAllocateMemory fuel h size =
        findFreeZone fuel h (h.next first) size.toUInt32 ((size + 1023) / 1024) := by
      intro fuel
      simp only [sysAllocateMemory, if_neg hge, hreg]
      rfl
    -- the first node is free, so it may be the last
    have hlast : (∀ q, l.getLast? = some q → (h.node q).allocated = false) ↔
        LastFree h (first :: l) := by
      cases l with
      | nil => exact iff_of_true (by simp) ⟨first, rfl, hhead first rfl⟩
      | cons p l =>
        rw [LastFree, List.getLast?_cons_cons]
        obtain ⟨q, hq⟩ : ∃ q, (p :: l).getLast? = some q := ⟨_, List.getLast?_eq_some_getLast
          (cons_ne_nil p l)⟩
        rw [hq]
        simp
    simp only [hcall]
    rw [exists_returns_findFreeZone_iff _ _ htail, Finishes, hlast, tail_cons, or_iff_right hge]

/-- **An allocation returns if and only if** there is a fit, or the last node is free. -/
theorem ends_iff (hc : h₀.Chained ns)
    (hfree : ∀ p ∈ ns, (h₀.node p).allocated = false) (hr : CallReachable h₀ h)
    (hv : ValidSize h size) :
    Ends h ns size ↔ (∃ i, FreeRun h (blocksNeeded size) ns.tail i) ∨
      LastFree h ns := by
  obtain ⟨hchain, hhead⟩ := chain_of_callReachable hc hfree hr
  have hlt : ¬h.totalRegionSize ≤ size.toUInt32 := UInt32.not_le.mpr hv.2.2
  have hpos : 1 ≤ blocksNeeded size := by
    have hpos := hv.1
    simp only [blocksNeeded, blockSize]
    omega
  cases ns with
  | nil =>
    -- a null pointer is followed
    have hreg : h.memoryRegion = none := hchain
    refine iff_of_false ?_ ?_
    · rintro ⟨h', p, ⟨fuel, hres⟩, -⟩
      simp only [sysAllocateMemory, if_neg hlt, hreg] at hres
      cases hres
    · rintro (⟨i, hrun⟩ | ⟨q, hq, -⟩)
      · exact not_freeRun_nil hpos hrun
      · cases hq
  | cons first l =>
    have hnone := firstFit_eq_none_iff (h := h) (l := l) hpos
    have hiff := exists_returns_sysAllocateMemory_iff hchain (cons_ne_nil first l) hhead size
    rw [toNat_numBlocksNeeded hv.1 hv.2.1, tail_cons, Ne, hnone, not_forall,
      or_iff_right hlt] at hiff
    simp only [not_not] at hiff
    rw [tail_cons, ← hiff]
    constructor
    · rintro ⟨h', p, hret, -⟩
      exact ⟨(h', p), hret⟩
    · rintro ⟨⟨h', p⟩, fuel, hres⟩
      refine ⟨h', p, ⟨fuel, hres⟩, fun hno => ?_⟩
      rcases (sysAllocateMemory_found hchain hv.2.2 hres).2 with
        ⟨-, hp, -⟩ | ⟨start, rest, hsome, -⟩
      · exact hp
      · rw [toNat_numBlocksNeeded hv.1 hv.2.1, tail_cons, hnone.mpr hno] at hsome
        cases hsome

end

/-- 1500 bytes of two free blocks. -/
theorem ends_sampleHeap : Ends (sampleHeap 4096) [0x100, 0x118, 0x130] 1500 := by
  have hi := initial_sampleHeap 4096
  refine (ends_iff hi.chain hi.free .start ⟨by decide, by decide, by decide⟩).mpr (.inr ?_)
  exact ⟨0x130, rfl, rfl⟩

/-- Both blocks are taken; for one more byte the search stays at the last node. -/
theorem not_ends_full : ∃ h, CallReachable (sampleHeap 4096) h ∧ ValidSize h 1 ∧
    ∀ r, ¬Returns (sysAllocateMemory · h 1) r := by
  have hi := initial_sampleHeap 4096
  have hview : (sysAllocateMemory 1 (sampleHeap 4096) 1500).map (fun r =>
      ((r.1.node 0x118).allocated, (r.1.node 0x130).allocated, r.1.totalRegionSize)) =
      some (true, true, 4096) := by decide
  obtain ⟨⟨h, p⟩, hres, hview⟩ := Option.map_eq_some_iff.mp hview
  simp only [Prod.mk.injEq] at hview
  obtain ⟨h118, h130, hsize⟩ := hview
  have hr : CallReachable (sampleHeap 4096) h := .allocate .start ⟨1, hres⟩
  have hlt : ¬h.totalRegionSize ≤ (1 : Int32).toUInt32 := by rw [hsize]; decide
  refine ⟨h, hr, ⟨by decide, by decide, by rw [hsize]; decide⟩, ?_⟩
  rintro r ⟨fuel, hret⟩
  obtain ⟨hchain, -⟩ := chain_of_callReachable hi.chain hi.free hr
  obtain ⟨hreg, htail⟩ := hchain
  simp only [sysAllocateMemory, if_neg hlt, hreg] at hret
  rcases (findFreeZone_ends _ htail).1 r hret with hfit | hlast
  · apply hfit
    rw [firstFit_cons_of_allocated h118, firstFit_cons_of_allocated h130, firstFit]
  · rw [hlast 0x130 rfl] at h130
    cases h130

end AthenX.KHeap
