import AthenX.KHeap.Kmalloc

/-!
# What an allocation leaves behind

An allocation that is freed again is not quite undone: the search writes the requested size to every
free node it tries. Nobody sees what is left, since `get_memory_size` of a live pointer reads a size
that was written for it.

Two heaps `Agree` on a set of nodes if they differ in the requested sizes of the others only. All
operations keep this, and give the same results.
-/

namespace AthenX.KHeap

open Linked List

/-- A node without the requested size. -/
def Node.stripped (nd : Node) : Node := { nd with totalRequestedMemory := 0 }

/-- The two heaps differ in the requested sizes of nodes outside `S` only. -/
structure Agree (S : Set NodePtr) (h h' : Heap) : Prop where
  globals : { h with node := h'.node } = h'
  stripped : ∀ q, (h.node q).stripped = (h'.node q).stripped
  same : ∀ q ∈ S, h.node q = h'.node q

variable {f : Node → Node} {ns : List NodePtr} {p ptr r : UInt32} {h h' h₁ h₂ : Heap}
  {live : List UInt32} {S : Set NodePtr} {runs : List (Allocation × List NodePtr)}

namespace Agree

variable {S S' : Set NodePtr} {h h' : Heap}

section

variable (ha : Agree S h h')

include ha

theorem memoryRegion : h'.memoryRegion = h.memoryRegion := by
  rw [← ha.globals]

theorem totalRegionSize : h'.totalRegionSize = h.totalRegionSize := by
  rw [← ha.globals]

theorem addr (q : NodePtr) : (h'.node q).addr = (h.node q).addr :=
  (congrArg Node.addr (ha.stripped q)).symm

theorem next (q : NodePtr) : (h'.node q).next = (h.node q).next :=
  (congrArg Node.next (ha.stripped q)).symm

theorem allocated (q : NodePtr) : (h'.node q).allocated = (h.node q).allocated :=
  (congrArg Node.allocated (ha.stripped q)).symm

theorem numBlockUsed (q : NodePtr) : (h'.node q).numBlockUsed = (h.node q).numBlockUsed :=
  (congrArg Node.numBlockUsed (ha.stripped q)).symm

theorem symm : Agree S h' h := by
  refine ⟨?_, fun q => (ha.stripped q).symm, fun q hq => (ha.same q hq).symm⟩
  rw [← ha.globals]

theorem mono (hS : S' ⊆ S) : Agree S' h h' :=
  ⟨ha.globals, ha.stripped, fun q hq => ha.same q (hS hq)⟩

theorem modify (p : NodePtr)
    (hf : ∀ a b, Node.stripped a = b.stripped → (f a).stripped = (f b).stripped) :
    Agree S (h.modify p f) (h'.modify p f) := by
  refine ⟨?_, fun q => ?_, fun q hq => ?_⟩
  · rw [← ha.globals]
    rfl
  · by_cases hq : q = p
    · rw [hq, Heap.modify_self, Heap.modify_self]
      exact hf _ _ (ha.stripped p)
    · rw [Heap.modify_of_ne h f hq, Heap.modify_of_ne h' f hq]
      exact ha.stripped q
  · by_cases hqp : q = p
    · rw [hqp, Heap.modify_self, Heap.modify_self, ha.same p (hqp ▸ hq)]
    · rw [Heap.modify_of_ne h f hqp, Heap.modify_of_ne h' f hqp]
      exact ha.same q hq

theorem overwrite (p : NodePtr) (hf : ∀ a b, Node.stripped a = b.stripped → f a = f b) :
    Agree (insert p S) (h.modify p f) (h'.modify p f) := by
  have hmod := ha.modify p fun a b hab => congrArg Node.stripped (hf a b hab)
  refine ⟨hmod.globals, hmod.stripped, fun q hq => ?_⟩
  rcases Set.mem_insert_iff.mp hq with rfl | hq
  · rw [Heap.modify_self, Heap.modify_self]
    exact hf _ _ (ha.stripped q)
  · exact hmod.same q hq

/-! ### The loops -/

theorem countFree : ∀ (k : ℕ) (cur : Option NodePtr),
    KHeap.countFree h' k cur = KHeap.countFree h k cur := by
  intro k
  induction k with
  | zero => intro cur; rfl
  | succ k ih =>
    intro cur
    cases cur with
    | none => rfl
    | some p => simp [KHeap.countFree, ha.allocated p, ha.next p, ih]

theorem advance (cur : Option NodePtr) : KHeap.advance h' cur = KHeap.advance h cur := by
  cases cur with
  | none => rfl
  | some p => simp [KHeap.advance, ha.next p]

theorem findNode (addr : UInt32) : ∀ (fuel : ℕ) (cur : Option NodePtr),
    KHeap.findNode h' addr fuel cur = KHeap.findNode h addr fuel cur := by
  intro fuel
  induction fuel with
  | zero => intro cur; rfl
  | succ fuel ih =>
    intro cur
    cases cur with
    | none => rfl
    | some p => simp [KHeap.findNode, ha.addr p, ha.next p, ih]

theorem markAllocated (num : Int32) : ∀ (k i : ℕ) (cur : Option NodePtr),
    Option.Rel (Agree S) (KHeap.markAllocated num k i cur h)
      (KHeap.markAllocated num k i cur h') := by
  intro k
  induction k generalizing h h' with
  | zero => intro i cur; exact .some ha
  | succ k ih =>
    intro i cur
    cases cur with
    | none => exact .none
    | some p =>
      simp only [KHeap.markAllocated, ha.next p]
      refine ih (ha.modify p fun a b hab => ?_) _ _
      simp only [Node.stripped, Node.mk.injEq] at hab ⊢
      simp [hab]

theorem markFree : ∀ (k : ℕ) (cur : Option NodePtr),
    Option.Rel (Agree S) (KHeap.markFree k cur h) (KHeap.markFree k cur h') := by
  intro k
  induction k generalizing h h' with
  | zero => intro cur; exact .some ha
  | succ k ih =>
    intro cur
    cases cur with
    | none => exact .none
    | some p =>
      simp only [KHeap.markFree, ha.next p]
      refine ih (ha.modify p fun a b hab => ?_) _
      simp only [Node.stripped, Node.mk.injEq] at hab ⊢
      simp [hab]

end

/-! ### The operations -/

theorem rel_mono {α β : Type} {r r' : α → β → Prop} {x : Option α} {y : Option β}
    (hr : Option.Rel r x y) (hle : ∀ a b, r a b → r' a b) : Option.Rel r' x y := by
  cases hr with
  | none => exact .none
  | some hab => exact .some (hle _ _ hab)

theorem exists_of_rel {α β : Type} {r : α → β → Prop} {x : Option α} {y : Option β} {a : α}
    (hr : Option.Rel r x y) (hx : x = some a) : ∃ b, y = some b ∧ r a b := by
  subst hx
  cases hr with
  | some hab => exact ⟨_, rfl, hab⟩

/-- The same result, and heaps that agree on `S` and on the node returned. -/
def Same (S : Set NodePtr) (l : List NodePtr) (x y : Heap × UInt32) : Prop :=
  x.2 = y.2 ∧ ∃ S', S ⊆ S' ∧ Agree S' x.1 y.1 ∧
    (x.2 = 0 ∨ ∃ p ∈ l, p ∈ S' ∧ (x.1.node p).addr = x.2)

theorem Same.mono {l l' : List NodePtr} {x y : Heap × UInt32} (hr : Same S' l x y) (hS : S ⊆ S')
    (hl : l ⊆ l') : Same S l' x y := by
  obtain ⟨heq, S'', hS', ha, hp⟩ := hr
  refine ⟨heq, S'', hS.trans hS', ha, hp.imp_right ?_⟩
  rintro ⟨p, hp, hrest⟩
  exact ⟨p, hl hp, hrest⟩

theorem findFreeZone (size : UInt32) (num : Int32) : ∀ (fuel : ℕ) (S : Set NodePtr) (h h' : Heap)
    (cur : Option NodePtr) (l : List NodePtr), Agree S h h' → Chain h.next cur l →
    Option.Rel (Same S l) (KHeap.findFreeZone fuel h cur size num)
      (KHeap.findFreeZone fuel h' cur size num) := by
  intro fuel
  induction fuel with
  | zero => intro S h h' cur l _ _; exact .none
  | succ fuel ih =>
    intro S h h' cur l ha hl
    cases cur with
    | none => exact .some ⟨rfl, S, Set.Subset.rfl, ha, .inl rfl⟩
    | some start =>
      simp only [KHeap.findFreeZone, ha.allocated start]
      by_cases hstart : (h.node start).allocated = true
      · rw [if_pos hstart, if_pos hstart, ha.advance]
        obtain ⟨l', hl', hsuf⟩ := chain_advance hl
        exact rel_mono (ih S h h' _ l' ha hl') fun x y hr => hr.mono Set.Subset.rfl hsuf.subset
      · rw [if_neg hstart]
        obtain ⟨rest, rfl, -⟩ := hl.eq_cons
        -- the requested size is written in both heaps
        have ha1 := ha.overwrite start
          (f := fun nd => { nd with totalRequestedMemory := size }) (by
            intro a b hab
            simp only [Node.stripped, Node.mk.injEq] at hab ⊢
            simp [hab])
        set h₁ := h.modify start fun nd => { nd with totalRequestedMemory := size }
        set h1' := h'.modify start fun nd => { nd with totalRequestedMemory := size }
        have hn1 : SameNodes h h₁ := sameNodes_modify h start fun nd => ⟨rfl, rfl, rfl⟩
        have hl1 : Chain h₁.next (some start) (start :: rest) := hn1.chain hl
        obtain ⟨-, -, hchain, -⟩ := countFree_spec h₁ num.toInt.toNat (some start) _ hl1
        rw [ha1.countFree]
        split
        · have hrel := ha1.markAllocated num num.toInt.toNat 0 (some start)
          generalize KHeap.markAllocated num num.toInt.toNat 0 (some start) h₁ = x at hrel ⊢
          generalize KHeap.markAllocated num num.toInt.toNat 0 (some start) h1' = y at hrel ⊢
          cases hrel with
          | none => exact .none
          | some ha2 =>
            refine .some ⟨(ha2.addr start).symm, _, Set.subset_insert start S, ha2, .inr ?_⟩
            exact ⟨start, mem_cons_self, Set.mem_insert start S, rfl⟩
        · rw [ha1.advance]
          obtain ⟨l', hl', hsuf⟩ := chain_advance hchain
          refine rel_mono (ih _ h₁ h1' _ l' ha1 hl') fun x y hr => ?_
          exact hr.mono (Set.subset_insert start S) (hsuf.trans (drop_suffix _ _)).subset

theorem sysAllocateMemory (ha : Agree S h h') (hl : h.Chained ns) (fuel : ℕ) (size : Int32) :
    Option.Rel (Same S ns) (KHeap.sysAllocateMemory fuel h size)
      (KHeap.sysAllocateMemory fuel h' size) := by
  simp only [KHeap.sysAllocateMemory, ha.totalRegionSize, ha.memoryRegion]
  split
  · exact .some ⟨rfl, S, Set.Subset.rfl, ha, .inl rfl⟩
  · cases hm : h.memoryRegion with
    | none => exact .none
    | some first =>
      rw [Heap.Chained, hm] at hl
      obtain ⟨rest, rfl, htl⟩ := hl.eq_cons
      simp only [ha.next first]
      refine rel_mono (findFreeZone size.toUInt32 _ fuel S h h' _ rest ha htl) fun x y hr => ?_
      exact hr.mono Set.Subset.rfl (subset_cons_self first rest)

theorem sysFreeMemory (ha : Agree S h h') (fuel : ℕ) (addr : UInt32) :
    Option.Rel (fun x y => x.2 = y.2 ∧ Agree S x.1 y.1) (KHeap.sysFreeMemory fuel h addr)
      (KHeap.sysFreeMemory fuel h' addr) := by
  simp only [KHeap.sysFreeMemory, ha.memoryRegion, ha.findNode]
  cases KHeap.findNode h addr fuel h.memoryRegion with
  | none => exact .none
  | some found =>
    cases found with
    | none => exact .some ⟨rfl, ha⟩
    | some p =>
      simp only [ha.allocated p, ha.numBlockUsed p]
      split
      · have hrel := ha.markFree (h.node p).numBlockUsed.toNat (some p)
        generalize KHeap.markFree (h.node p).numBlockUsed.toNat (some p) h = x at hrel ⊢
        generalize KHeap.markFree (h.node p).numBlockUsed.toNat (some p) h' = y at hrel ⊢
        cases hrel with
        | none => exact .none
        | some ha' => exact .some ⟨rfl, ha'⟩
      · exact .some ⟨rfl, ha⟩

/-- The size of a node outside `S` is not read if the node has another address. -/
theorem memorySize (ha : Agree S h h') : ∀ (k : ℕ) (cur : Option NodePtr)
    (l : List NodePtr), Chain h.next cur l → (∀ q ∈ l, (h.node q).addr = ptr → q ∈ S) →
    KHeap.memorySize h' ptr k cur = KHeap.memorySize h ptr k cur := by
  intro k
  induction k with
  | zero => intro cur l _ _; rfl
  | succ k ih =>
    intro cur l hl hS
    cases cur with
    | none => rfl
    | some p =>
      obtain ⟨rest, rfl, htl⟩ := hl.eq_cons
      have hrest := ih _ rest htl fun q hq => hS q (mem_cons_of_mem p hq)
      simp only [KHeap.memorySize, ha.addr p, ha.allocated p, ha.next p]
      by_cases hp : (h.node p).addr = ptr
      · have hreq := congrArg Node.totalRequestedMemory (ha.same p (hS p mem_cons_self hp))
        exact if_congr Iff.rfl (congrArg some hreq.symm) hrest
      · rw [if_neg (by simp [hp]), if_neg (by simp [hp])]
        exact hrest

theorem getMemorySize (ha : Agree S h h')
    (hl : h.Chained ns) (hS : ∀ q ∈ ns, (h.node q).addr = ptr → q ∈ S) :
    KHeap.getMemorySize h' ptr = KHeap.getMemorySize h ptr := by
  simp only [KHeap.getMemorySize, ha.memoryRegion]
  cases hm : h.memoryRegion with
  | none => rfl
  | some first =>
    rw [Heap.Chained, hm] at hl
    simp only [ha.numBlockUsed first]
    exact ha.memorySize _ _ ns hl hS

end Agree

/-! ### Sequences of calls -/

/-- A later call. -/
inductive HeapCall where
  | allocate (size : Int32)
  | free (ptr : UInt32)
  | size (ptr : UInt32)
  deriving DecidableEq, Repr

/-- The calls return `rs`. Any size may be asked for; pointers are released and measured while live.
-/
inductive Replies : Heap → List UInt32 → List HeapCall → List UInt32 → Prop
  | nil {h : Heap} {live : List UInt32} : Replies h live [] []
  | allocate {h h' : Heap} {live : List UInt32} {size : Int32} {p : UInt32} {cs : List HeapCall}
      {rs : List UInt32} : Returns (sysAllocateMemory · h size) (h', p) →
      Replies h' (if p = 0 then live else live ++ [p]) cs rs →
      Replies h live (.allocate size :: cs) (p :: rs)
  | free {h h' : Heap} {live : List UInt32} {p r : UInt32} {cs : List HeapCall}
      {rs : List UInt32} : p ∈ live → Returns (sysFreeMemory · h p) (h', r) →
      Replies h' (live.erase p) cs rs → Replies h live (.free p :: cs) (r :: rs)
  | size {h : Heap} {live : List UInt32} {p r : UInt32} {cs : List HeapCall}
      {rs : List UInt32} : p ∈ live → getMemorySize h p = some r → Replies h live cs rs →
      Replies h live (.size p :: cs) (r :: rs)

/-- The nodes whose requested size a call may read. -/
def liveNodes (h : Heap) (ns : List NodePtr) (live : List UInt32) : Set NodePtr :=
  { q | q ∈ ns ∧ (h.node q).addr ∈ live }

theorem liveNodes_subset (hs : Spaced h' ns) (hn : SameNodes h h') (hS : liveNodes h ns live ⊆ S)
    (hp : p = 0 ∨ ∃ q ∈ ns, q ∈ S ∧ (h'.node q).addr = p) :
    liveNodes h' ns (if p = 0 then live else live ++ [p]) ⊆ S := by
  rintro q ⟨hq, hlive⟩
  by_cases hmem : (h'.node q).addr ∈ live
  · rw [hn.addr] at hmem
    exact hS ⟨hq, hmem⟩
  · split at hlive
    · exact absurd hlive hmem
    · next hp0 =>
      obtain ⟨q', hq', hq'S, haddr⟩ := hp.resolve_left hp0
      have hqp : (h'.node q).addr = p :=
        mem_singleton.mp ((mem_append.mp hlive).resolve_left hmem)
      rwa [hs.addr_inj hq hq' (hqp.trans haddr.symm)]

/-- **Two heaps with the same sizes of live pointers give the same replies.** -/
theorem replies_of_agree {cs : List HeapCall}
    {rs : List UInt32} (hr : Replies h live cs rs) : ∀ {h' : Heap},
    h.Chained ns → Spaced h ns → Agree (liveNodes h ns live) h h' →
    Replies h' live cs rs := by
  induction hr with
  | nil => intro h' _ _ _; exact .nil
  | allocate hret _ ih =>
    intro h' hl hs ha
    obtain ⟨fuel, hres⟩ := hret
    have hn := sameNodes_sysAllocateMemory hl hres
    obtain ⟨⟨h1', p'⟩, hres', rfl, S', hS, ha', hp⟩ :=
      Agree.exists_of_rel (ha.sysAllocateMemory hl fuel _) hres
    refine .allocate ⟨fuel, hres'⟩ (ih (hn.chained hl) (hn.spaced hs) ?_)
    exact ha'.mono (liveNodes_subset (hn.spaced hs) hn hS hp)
  | free hmem hret _ ih =>
    intro h' hl hs ha
    obtain ⟨fuel, hres⟩ := hret
    have hn := sameNodes_sysFreeMemory hres
    obtain ⟨⟨h1', r'⟩, hres', rfl, ha'⟩ := Agree.exists_of_rel (ha.sysFreeMemory fuel _) hres
    refine .free hmem ⟨fuel, hres'⟩ (ih (hn.chained hl) (hn.spaced hs) ?_)
    refine ha'.mono ?_
    rintro q ⟨hq, hlive⟩
    rw [hn.addr] at hlive
    exact ⟨hq, mem_of_mem_erase hlive⟩
  | size hmem hres _ ih =>
    intro h' hl hs ha
    refine .size hmem ?_ (ih hl hs ha)
    rw [← hres]
    refine ha.getMemorySize hl fun q hq haddr => ⟨hq, ?_⟩
    rwa [haddr]

/-! ### An allocation and its release -/

theorem agree_of_marks (hn : SameNodes h h')
    (hm : ∀ q, SameMarks h h' q) (hS : ∀ q ∈ S, h.node q = h'.node q) : Agree S h h' := by
  refine ⟨?_, fun q => ?_, hS⟩
  · obtain ⟨node', region', total', active', alloc', free'⟩ := h'
    obtain ⟨rfl, rfl, rfl, rfl, rfl, -⟩ := hn
    rfl
  · obtain ⟨h₁, h₂, h3⟩ := hm q
    have h4 : (h'.node q).next = (h.node q).next := hn.next q
    simp only [Node.stripped, Node.mk.injEq]
    exact ⟨(hn.addr q).symm, (hn.size q).symm, h4.symm, h₁.symm, h₂.symm, h3.symm, trivial⟩

theorem Runs.allocated_of_live (hr : Runs h ns runs) (hs : Spaced h ns) {q : NodePtr}
    (hq : q ∈ liveNodes h ns ((runs.map Prod.fst).map Allocation.ptr)) :
    (h.node q).allocated = true := by
  obtain ⟨hq, hlive⟩ := hq
  rw [map_map] at hlive
  obtain ⟨a, ha, haddr⟩ := mem_map.mp hlive
  have hrun := hr.isRun a ha
  obtain ⟨p, hhead, hp⟩ := Option.map_eq_some_iff.mp hrun.ptr
  have hpa : p ∈ a.2 := mem_of_mem_head? hhead
  have hpn : p ∈ ns := mem_of_mem_tail (hrun.consecutive.subset hpa)
  rw [hs.addr_inj hq hpn (haddr.symm.trans hp.symm)]
  exact (hr.allocated p hpn).mpr ⟨a, ha, hpa⟩

theorem mem_of_findNode {addr : UInt32} {p : NodePtr} : ∀ {fuel : ℕ}
    {cur : Option NodePtr} {l : List NodePtr}, Chain h.next cur l →
    findNode h addr fuel cur = some (some p) → p ∈ l ∧ (h.node p).addr = addr := by
  intro fuel
  induction fuel with
  | zero => intro cur l _ hres; cases hres
  | succ fuel ih =>
    intro cur l hl hres
    cases cur with
    | none => cases hres
    | some q =>
      obtain ⟨rest, rfl, htl⟩ := hl.eq_cons
      unfold findNode at hres
      split at hres
      · obtain ⟨hp, haddr⟩ := ih htl hres
        exact ⟨mem_cons_of_mem q hp, haddr⟩
      · next haddr =>
        obtain rfl : q = p := by simpa using hres
        exact ⟨mem_cons_self, by simpa using haddr⟩

/-- No allocated node is at address `0`, so a release of null changes nothing. -/
theorem sysFreeMemory_zero (hl : h.Chained ns) (hs : Spaced h ns)
    (hr : Runs h ns runs) (hres : Returns (sysFreeMemory · h 0) (h', r)) :
    h' = h := by
  obtain ⟨fuel, hres⟩ := hres
  simp only [sysFreeMemory] at hres
  cases hfind : findNode h 0 fuel h.memoryRegion with
  | none => simp [hfind] at hres
  | some found =>
    cases found with
    | none =>
      simp only [hfind, Option.some.injEq, Prod.mk.injEq] at hres
      exact hres.1.symm
    | some p =>
      obtain ⟨hp, haddr⟩ := mem_of_findNode hl hfind
      have hfree : ¬ (h.node p).allocated = true := by
        intro halloc
        obtain ⟨a, ha, hpa⟩ := (hr.allocated p hp).mp halloc
        exact hs.addr_ne_zero ((hr.isRun a ha).consecutive.subset hpa) haddr
      simp only [hfind, if_neg hfree, Option.some.injEq, Prod.mk.injEq] at hres
      exact hres.1.symm

theorem Runs.sameMarks_cleared {run : List NodePtr} {num : Int32}
    (hr : Runs h ns runs) (hsub : run ⊆ ns.tail)
    (hmark : Marked h h₁ run num) (hfree : ∀ q ∈ run, (h.node q).allocated = false)
    (hcl : Cleared h₁ h₂ run) (q : NodePtr) : SameMarks h h₂ q := by
  by_cases hq : q ∈ run
  · have hqns : q ∈ ns := mem_of_mem_tail (hsub hq)
    have hfirst : (h.node q).firstBlock = false := by
      rw [← Bool.not_eq_true, hr.first q hqns]
      rintro ⟨a, ha, hhead⟩
      have halloc := (hr.allocated q hqns).mpr ⟨a, ha, mem_of_mem_head? hhead⟩
      rw [hfree q hq] at halloc
      cases halloc
    refine ⟨?_, ?_, ?_⟩
    · rw [hcl.allocated q hq, hfree q hq]
    · rw [hcl.first q hq, hfirst]
    · rw [hcl.used q hq, hr.used_free q (hsub hq) (hfree q hq)]
  · unfold SameMarks
    rw [hcl.frame q hq]
    exact hmark.frame q hq

theorem agree_allocate_free {size : Int32} (hl : h.Chained ns) (hs : Spaced h ns)
    (hr : Runs h ns runs) (hv : ValidSize h size)
    (ha : Returns (sysAllocateMemory · h size) (h₁, p))
    (hf : Returns (sysFreeMemory · h₁ p) (h₂, r)) :
    Agree (liveNodes h ns ((runs.map Prod.fst).map Allocation.ptr)) h h₂ := by
  obtain ⟨fuel, ha⟩ := ha
  obtain ⟨hspares, hcase⟩ := sysAllocateMemory_spec hl ha
  rcases hcase with ⟨rfl, hn, hm⟩ | ⟨start, rest, -, hfound, rfl⟩
  · obtain rfl := sysFreeMemory_zero (hn.chained hl) (hn.spaced hs)
      (hr.congr hn hm) hf
    exact agree_of_marks hn hm fun q hq => (hspares q (hr.allocated_of_live hs hq)).symm
  · obtain ⟨run, hrun, hmark, hfree, hnum⟩ := hfound.isRun hv
    have hn := hmark.nodes
    have hr1 := hr.mark hmark hrun hnum hfree
    obtain ⟨h2', hret, hcl⟩ := sysFreeMemory_run (hn.chained hl)
      (hn.spaced hs) hr1 (mem_append_right runs mem_cons_self)
    cases sysFreeMemory_unique hf hret
    refine agree_of_marks (hn.trans hcl.nodes)
      (hr.sameMarks_cleared hrun.consecutive.subset hmark hfree hcl) fun q hq => ?_
    -- a live node was allocated, so the search has not touched it, and it is not in the run
    have halloc := hr.allocated_of_live hs hq
    rw [hcl.frame q ?_, hspares q halloc]
    intro hqr
    rw [hfree q hqr] at halloc
    cases halloc

/-- **An allocation and its release are not observable**: any later calls return what they return
without them. -/
theorem replies_allocate_free {h₀ h h₁ h₂ : Heap} {ns : List NodePtr} {live : List Allocation}
    {size : Int32} {p r : UInt32} (hi : Initial h₀ ns) (hr : Reachable h₀ h live)
    (hv : ValidSize h size) (ha : Returns (sysAllocateMemory · h size) (h₁, p))
    (hf : Returns (sysFreeMemory · h₁ p) (h₂, r)) (cs : List HeapCall)
    (rs : List UInt32) :
    Replies h₂ (live.map Allocation.ptr) cs rs ↔ Replies h (live.map Allocation.ptr) cs rs := by
  obtain ⟨hn, runs, hruns, rfl⟩ := exists_runs_of_reachable hi hr
  have hl : h.Chained ns := hn.chained hi.chain
  have hs := hn.spaced hi.spaced
  have hagree := agree_allocate_free hl hs hruns hv ha hf
  obtain ⟨fuel, ha⟩ := ha
  obtain ⟨fuel', hf⟩ := hf
  have hn2 := (sameNodes_sysAllocateMemory hl ha).trans (sameNodes_sysFreeMemory hf)
  constructor
  · intro hreplies
    refine replies_of_agree hreplies (hn2.chained hl) (hn2.spaced hs) ?_
    refine hagree.symm.mono ?_
    rintro q ⟨hq, hlive⟩
    rw [hn2.addr] at hlive
    exact ⟨hq, hlive⟩
  · exact fun hreplies => replies_of_agree hreplies hl hs hagree

/-- Three nodes, the second of which holds 100 bytes. -/
def smallHeap : Heap :=
  ((sysAllocateMemory 1 (sampleHeap 4096) 100).getD (sampleHeap 4096, 0)).1

/-- The same heap after a search for 1500 bytes, which has left that size in the third node. -/
def searchedHeap : Heap := ((sysAllocateMemory 3 smallHeap 1500).getD (smallHeap, 0)).1

theorem replies_smallHeap : (searchedHeap.node 0x130).totalRequestedMemory = 1500 ∧
    Replies searchedHeap [0x1400]
      [.size 0x1400, .allocate 10, .size 0x1800, .free 0x1400] [100, 0x1800, 10, 0] := by
  have hr : Reachable (sampleHeap 4096) smallHeap [⟨0x1400, 100⟩] :=
    Reachable.allocate (p := 0x1400) .start ⟨by decide, by decide, by decide⟩ ⟨1, rfl⟩
  have hv : ValidSize smallHeap 1500 := ⟨by decide, by decide, by decide⟩
  have ha : Returns (sysAllocateMemory · smallHeap 1500) (searchedHeap, 0) := ⟨3, rfl⟩
  have hf : Returns (sysFreeMemory · searchedHeap 0) (searchedHeap, 0) := ⟨4, rfl⟩
  refine ⟨by decide, (replies_allocate_free (initial_sampleHeap 4096) hr hv ha hf _ _).mpr ?_⟩
  refine .size (by decide) (by decide) ?_
  refine .allocate ⟨3, rfl⟩ (.size (by decide) (by decide) (.free (by decide) ⟨4, rfl⟩ .nil))

end AthenX.KHeap
