import AthenX.KHeap.Basic

/-!
# What one heap operation does to the node list

The loops of the allocator follow the node list, so each is specified on a chain
of nodes. No operation relinks the list or moves a block (`SameNodes`); what
changes is the *marks* of nodes — `allocated`, `first_block` and
`num_block_used`.
-/

namespace AthenX.KHeap

open Linked List

/-! ### What never changes -/

/-- The two heaps have the same list of the same blocks, and the same other variables. -/
structure SameNodes (h h' : Heap) : Prop where
  memoryRegion : h'.memoryRegion = h.memoryRegion
  totalRegionSize : h'.totalRegionSize = h.totalRegionSize
  heapActive : h'.heapActive = h.heapActive
  memLockAlloc : h'.memLockAlloc = h.memLockAlloc
  memLockFree : h'.memLockFree = h.memLockFree
  addr : ∀ q, (h'.node q).addr = (h.node q).addr
  size : ∀ q, (h'.node q).size = (h.node q).size
  next : ∀ q, h'.next q = h.next q

/-- Two heaps give a node the same marks. -/
def SameMarks (h h' : Heap) (q : NodePtr) : Prop :=
  (h'.node q).allocated = (h.node q).allocated ∧
    (h'.node q).firstBlock = (h.node q).firstBlock ∧
    (h'.node q).numBlockUsed = (h.node q).numBlockUsed

theorem SameNodes.refl (h : Heap) : SameNodes h h :=
  ⟨rfl, rfl, rfl, rfl, rfl, fun _ => rfl, fun _ => rfl, fun _ => rfl⟩

variable {h h' h'' h1 : Heap} {p cur : Option NodePtr} {l rest : List NodePtr} {num : Int32}
  {q start : NodePtr} {n : ℕ} {size : UInt32}

theorem SameNodes.trans (h1 : SameNodes h h') (h2 : SameNodes h' h'') : SameNodes h h'' where
  memoryRegion := h2.memoryRegion.trans h1.memoryRegion
  totalRegionSize := h2.totalRegionSize.trans h1.totalRegionSize
  heapActive := h2.heapActive.trans h1.heapActive
  memLockAlloc := h2.memLockAlloc.trans h1.memLockAlloc
  memLockFree := h2.memLockFree.trans h1.memLockFree
  addr := fun q => (h2.addr q).trans (h1.addr q)
  size := fun q => (h2.size q).trans (h1.size q)
  next := fun q => (h2.next q).trans (h1.next q)

/-- Overwriting a node keeps the list if it keeps the node's block and link. -/
theorem sameNodes_modify (h : Heap) (p : NodePtr) {f : Node → Node}
    (hf : ∀ nd, (f nd).addr = nd.addr ∧ (f nd).size = nd.size ∧ (f nd).next = nd.next) :
    SameNodes h (h.modify p f) := by
  have key : ∀ q, ((h.modify p f).node q).addr = (h.node q).addr ∧
      ((h.modify p f).node q).size = (h.node q).size ∧
      ((h.modify p f).node q).next = (h.node q).next := by
    intro q
    by_cases hq : q = p
    · subst hq; rw [Heap.modify_self]; exact hf _
    · rw [Heap.modify_of_ne h f hq]; exact ⟨rfl, rfl, rfl⟩
  exact ⟨rfl, rfl, rfl, rfl, rfl, fun q => (key q).1, fun q => (key q).2.1, fun q => (key q).2.2⟩

theorem SameNodes.seg (hs : SameNodes h h') {q : Option NodePtr}
    (hl : Seg h.next p l q) : Seg h'.next p l q :=
  hl.congr fun a _ => hs.next a

theorem SameNodes.chain (hs : SameNodes h h')
    (hl : Chain h.next p l) : Chain h'.next p l := hs.seg hl

theorem SameNodes.chained (hs : SameNodes h h') (hl : h.Chained l) : h'.Chained l := by
  rw [Heap.Chained, hs.memoryRegion]
  exact hs.chain hl

theorem SameMarks.trans {q : NodePtr} (h1 : SameMarks h h' q)
    (h2 : SameMarks h' h'' q) : SameMarks h h'' q :=
  ⟨h2.1.trans h1.1, h2.2.1.trans h1.2.1, h2.2.2.trans h1.2.2⟩

/-! ### The marking loops -/

/-- The nodes of `run`, and no others, have been marked as one allocation. -/
structure Marked (h h' : Heap) (run : List NodePtr) (num : Int32) : Prop where
  nodes : SameNodes h h'
  frame : ∀ q, q ∉ run → SameMarks h h' q
  allocated : ∀ q ∈ run, (h'.node q).allocated = true
  used : ∀ q ∈ run, (h'.node q).numBlockUsed = num.toUInt32
  first : ∀ q ∈ run, ((h'.node q).firstBlock = true ↔ run.head? = some q)

/-- The nodes of `run`, and no others, have been cleared. -/
structure Cleared (h h' : Heap) (run : List NodePtr) : Prop where
  nodes : SameNodes h h'
  frame : ∀ q, q ∉ run → h'.node q = h.node q
  allocated : ∀ q ∈ run, (h'.node q).allocated = false
  used : ∀ q ∈ run, (h'.node q).numBlockUsed = 0
  first : ∀ q ∈ run, (h'.node q).firstBlock = false

/-- The marking loop from iteration `i` on. Only iteration `0` sets `first_block`. -/
theorem markAllocated_spec (num : Int32) : ∀ (run : List NodePtr) (i : ℕ) (h : Heap)
    (cur q : Option NodePtr), Seg h.next cur run q → run.Nodup →
    ∃ h', markAllocated num run.length i cur h = some h' ∧ SameNodes h h' ∧
      (∀ p, p ∉ run → h'.node p = h.node p) ∧
      ∀ p ∈ run, (h'.node p).allocated = true ∧ (h'.node p).numBlockUsed = num.toUInt32 ∧
        ((h'.node p).firstBlock = true ↔ i = 0 ∧ run.head? = some p) ∧
        (h'.node p).totalRequestedMemory = (h.node p).totalRequestedMemory := by
  intro run
  induction run with
  | nil =>
    intro i h cur q _ _
    exact ⟨h, rfl, SameNodes.refl h, fun _ _ => rfl, fun p hp => by simp at hp⟩
  | cons a run ih =>
    intro i h cur q hseg hnd
    obtain ⟨rfl, hseg⟩ := hseg
    obtain ⟨ha, hnd⟩ := nodup_cons.mp hnd
    have hsame : SameNodes h _ := sameNodes_modify h a
      (f := fun nd =>
        { nd with allocated := true, firstBlock := i == 0, numBlockUsed := num.toUInt32 })
      fun nd => ⟨rfl, rfl, rfl⟩
    obtain ⟨h', hrun, hnodes, hframe, hmark⟩ := ih (i + 1) _ _ q (hsame.seg hseg) hnd
    refine ⟨h', hrun, hsame.trans hnodes, ?_, ?_⟩
    · intro p hp
      obtain ⟨hpa, hp⟩ := ne_and_not_mem_of_not_mem_cons hp
      rw [hframe p hp, Heap.modify_of_ne h _ hpa]
    · intro p hp
      rcases mem_cons.mp hp with rfl | hp
      · -- the head is not met again, so the later iterations keep its marks
        rw [hframe p ha]
        simp
      · obtain ⟨h1, h2, h3, h4⟩ := hmark p hp
        have hpa : p ≠ a := fun hap => ha (hap ▸ hp)
        refine ⟨h1, h2, ?_, by rw [h4, Heap.modify_of_ne h _ hpa]⟩
        rw [h3]
        simp [hpa.symm]

theorem markFree_spec : ∀ (run : List NodePtr) (h : Heap) (cur q : Option NodePtr),
    Seg h.next cur run q → run.Nodup →
    ∃ h', markFree run.length cur h = some h' ∧ Cleared h h' run := by
  intro run
  induction run with
  | nil =>
    intro h cur q _ _
    exact ⟨h, rfl, SameNodes.refl h, fun _ _ => rfl, by simp, by simp, by simp⟩
  | cons a run ih =>
    intro h cur q hseg hnd
    obtain ⟨rfl, hseg⟩ := hseg
    obtain ⟨ha, hnd⟩ := nodup_cons.mp hnd
    have hsame : SameNodes h _ := sameNodes_modify h a
      (f := fun nd => { nd with
        allocated := false, firstBlock := false, numBlockUsed := 0, totalRequestedMemory := 0 })
      fun nd => ⟨rfl, rfl, rfl⟩
    obtain ⟨h', hrun, hc⟩ := ih _ _ q (hsame.seg hseg) hnd
    have hhead : h'.node a = _ := hc.frame a ha
    refine ⟨h', hrun, hsame.trans hc.nodes, ?_, ?_, ?_, ?_⟩
    · intro p hp
      obtain ⟨hpa, hp⟩ := ne_and_not_mem_of_not_mem_cons hp
      rw [hc.frame p hp, Heap.modify_of_ne h _ hpa]
    · intro p hp
      rcases mem_cons.mp hp with rfl | hp
      · rw [hhead, Heap.modify_self]
      · exact hc.allocated p hp
    · intro p hp
      rcases mem_cons.mp hp with rfl | hp
      · rw [hhead, Heap.modify_self]
      · exact hc.used p hp
    · intro p hp
      rcases mem_cons.mp hp with rfl | hp
      · rw [hhead, Heap.modify_self]
      · exact hc.first p hp

/-! ### First fit -/

/-- A run of `n` free nodes starts the list, and one even if `n` is zero. -/
def StartsFree (h : Heap) (n : ℕ) (l : List NodePtr) : Prop :=
  n ≤ l.length ∧ ∀ q ∈ l.take (max n 1), (h.node q).allocated = false

instance (h : Heap) (n : ℕ) (l : List NodePtr) : Decidable (StartsFree h n l) :=
  @instDecidableAnd _ _ _ (List.decidableBAll _ _)

/-- The first node of the list at which a run of `n` free nodes starts. -/
def firstFit (h : Heap) (n : ℕ) : List NodePtr → Option NodePtr
  | [] => none
  | q :: l => if StartsFree h n (q :: l) then some q else firstFit h n l

theorem StartsFree.head (hfit : StartsFree h n (q :: l)) : (h.node q).allocated = false := by
  obtain ⟨k, hk⟩ : ∃ k, max n 1 = k + 1 := ⟨max n 1 - 1, by omega⟩
  refine hfit.2 q ?_
  rw [hk, take_succ_cons]
  exact mem_cons_self

theorem firstFit_congr (hm : ∀ q, (h'.node q).allocated = (h.node q).allocated) :
    ∀ l : List NodePtr, firstFit h' n l = firstFit h n l
  | [] => rfl
  | q :: l => by
      have hiff : StartsFree h' n (q :: l) ↔ StartsFree h n (q :: l) := by
        simp [StartsFree, hm]
      rw [firstFit, firstFit_congr hm l]
      exact if_congr hiff rfl rfl

theorem firstFit_cons_of_allocated (hq : (h.node q).allocated = true) :
    firstFit h n (q :: l) = firstFit h n l := by
  rw [firstFit, if_neg]
  intro hfit
  have hfree := hfit.head
  rw [hq] at hfree
  cases hfree

theorem firstFit_drop : ∀ {c : ℕ} {l : List NodePtr}, c < n →
    (∀ q, (l.drop c).head? = some q → (h.node q).allocated = true) →
    firstFit h n l = firstFit h n (l.drop c) := by
  intro c
  induction c with
  | zero => exact fun _ _ => rfl
  | succ c ih =>
    intro l hc hend
    cases l with
    | nil => rfl
    | cons p l =>
      rw [drop_succ_cons] at hend ⊢
      rw [firstFit, if_neg, ih (by omega) hend]
      rintro ⟨hlen, hfree⟩
      -- the node behind the run is one of the first `n`
      have hlt : c < l.length := by
        rw [length_cons] at hlen
        omega
      have hq : l[c]? = some l[c] := List.getElem?_eq_getElem hlt
      have hmem : l[c] ∈ (p :: l).take (max n 1) :=
        mem_of_getElem? (i := c + 1) (by
          rw [List.getElem?_take_of_lt (by omega), List.getElem?_cons_succ, hq])
      have halloc := hend l[c] (by rw [List.head?_drop, hq])
      rw [hfree _ hmem] at halloc
      cases halloc

/-! ### One turn of the search -/

theorem countFree_spec (h : Heap) : ∀ (k : ℕ) (cur : Option NodePtr) (l : List NodePtr),
    Chain h.next cur l →
    (countFree h k cur).1 ≤ k ∧ (countFree h k cur).1 ≤ l.length ∧
      Chain h.next (countFree h k cur).2 (l.drop (countFree h k cur).1) ∧
      (∀ q ∈ l.take (countFree h k cur).1, (h.node q).allocated = false) ∧
      ((countFree h k cur).1 = k ∨
        ∀ q, (l.drop (countFree h k cur).1).head? = some q → (h.node q).allocated = true) := by
  intro k
  induction k with
  | zero => intro cur l hl; simpa [countFree] using hl
  | succ k ih =>
    intro cur l hl
    cases cur with
    | none =>
      obtain rfl := hl.eq_nil
      simp [countFree]
    | some p =>
      obtain ⟨l, rfl, htl⟩ := hl.eq_cons
      by_cases hp : (h.node p).allocated = true
      · simpa [countFree, hp] using hl
      · obtain ⟨h1, h2, h3, h4, h5⟩ := ih (h.node p).next l htl
        simp only [countFree, hp, if_false, Bool.false_eq_true, length_cons,
          take_succ_cons, mem_cons]
        refine ⟨by omega, by omega, h3, ?_, h5.imp (congrArg Nat.succ) id⟩
        rintro q (rfl | hq)
        · simpa using hp
        · exact h4 q hq

theorem countFree_eq_iff (hl : Chain h.next (some start) (start :: rest))
    (hfree : (h.node start).allocated = false) :
    (countFree h n (some start)).1 = n ↔ StartsFree h n (start :: rest) := by
  obtain ⟨hle, hlen, -, hcounted, hstop⟩ := countFree_spec h n (some start) _ hl
  constructor
  · intro heq
    rw [heq] at hlen hcounted
    refine ⟨hlen, fun q hq => ?_⟩
    by_cases hz : n = 0
    · rw [hz] at hq
      obtain rfl : q = start := by simpa using hq
      exact hfree
    · rw [Nat.max_eq_left (by omega)] at hq
      exact hcounted q hq
  · intro hfit
    by_contra hne
    have hlt : (countFree h n (some start)).1 < n := by omega
    replace hstop := hstop.resolve_left hne
    -- the node that ended the count is one of the first `n`
    generalize (countFree h n (some start)).1 = c at hlt hstop
    obtain ⟨q, hq⟩ : ∃ q, (start :: rest)[c]? = some q :=
      ⟨_, List.getElem?_eq_getElem (Nat.lt_of_lt_of_le hlt hfit.1)⟩
    have hmem : q ∈ (start :: rest).take (max n 1) :=
      mem_of_getElem? (i := c) (by rw [List.getElem?_take_of_lt (by omega)]; exact hq)
    have halloc := hstop q (by rw [List.head?_drop]; exact hq)
    rw [hfit.2 q hmem] at halloc
    cases halloc

theorem advance_cases (hl : Chain h.next (some q) (q :: l)) :
    l = [] ∧ advance h (some q) = some q ∨ l ≠ [] ∧ Chain h.next (advance h (some q)) l := by
  have htail : Chain h.next (h.node q).next l := hl.2
  cases hn : (h.node q).next with
  | none =>
    rw [hn] at htail
    refine .inl ⟨htail.eq_nil, ?_⟩
    simp [advance, hn]
  | some p =>
    rw [hn] at htail
    obtain ⟨l', rfl, -⟩ := htail.eq_cons
    refine .inr ⟨cons_ne_nil p l', ?_⟩
    simp only [advance, hn]
    exact htail

theorem chain_advance (hl : Chain h.next cur l) :
    ∃ l', Chain h.next (advance h cur) l' ∧ l' <:+ l := by
  cases cur with
  | none => exact ⟨l, hl, suffix_rfl⟩
  | some p =>
    obtain ⟨l', rfl, -⟩ := hl.eq_cons
    rcases advance_cases hl with ⟨-, hadv⟩ | ⟨-, hadv⟩
    · exact ⟨p :: l', by rwa [hadv], suffix_rfl⟩
    · exact ⟨l', hadv, suffix_cons p l'⟩

/-- What a successful search did: a run of free nodes of `l` from `start` on is marked, of
`num_blocks_needed` nodes, or none if that is not positive. -/
structure Found (h h' : Heap) (l : List NodePtr) (num : Int32) (start : NodePtr)
    (rest : List NodePtr) : Prop where
  tail : start :: rest <:+ l
  start_free : (h.node start).allocated = false
  enough : num.toInt.toNat ≤ (start :: rest).length
  free : ∀ q ∈ (start :: rest).take num.toInt.toNat, (h.node q).allocated = false
  marked : Marked h h' ((start :: rest).take num.toInt.toNat) num

theorem sameMarks_request (h : Heap) (p : NodePtr) (size : UInt32) (q : NodePtr) :
    SameMarks h (h.modify p fun nd => { nd with totalRequestedMemory := size }) q := by
  unfold SameMarks
  by_cases hq : q = p
  · subst hq; simp
  · rw [Heap.modify_of_ne h _ hq]; simp

/-- The search has not written to a node that is allocated. -/
def Spares (h h' : Heap) : Prop := ∀ q, (h.node q).allocated = true → h'.node q = h.node q

theorem spares_request {p : NodePtr} (hp : (h.node p).allocated = false)
    (size : UInt32) : Spares h (h.modify p fun nd => { nd with totalRequestedMemory := size }) := by
  intro q hq
  refine Heap.modify_of_ne h _ ?_
  rintro rfl
  rw [hp] at hq
  cases hq

theorem Found.of_request {l' : List NodePtr}
    (hf : Found h1 h' l' num start rest) (hsame : SameNodes h h1)
    (hmarks : ∀ q, SameMarks h h1 q) (hsuf : l' <:+ l) : Found h h' l num start rest where
  tail := hf.tail.trans hsuf
  start_free := (hmarks start).1.symm.trans hf.start_free
  enough := hf.enough
  free := fun q hq => (hmarks q).1.symm.trans (hf.free q hq)
  marked := ⟨hsame.trans hf.marked.nodes, fun q hq => (hmarks q).trans (hf.marked.frame q hq),
    hf.marked.allocated, hf.marked.used, hf.marked.first⟩

/-- **A turn with a fit** marks the run and returns its first block. -/
theorem exists_found (size : UInt32) (hl : Chain h.next (some start) (start :: rest))
    (hfit : StartsFree h num.toInt.toNat (start :: rest)) :
    ∃ h', Spares h h' ∧ Found h h' (start :: rest) num start rest ∧
      (h'.node start).totalRequestedMemory = size ∧
      ∀ fuel, findFreeZone (fuel + 1) h (some start) size num = some (h', (h.node start).addr) := by
  have hfree := hfit.head
  have hrun : ∀ q ∈ (start :: rest).take num.toInt.toNat, (h.node q).allocated = false :=
    fun q hq => hfit.2 q ((take_prefix_take_left (Nat.le_max_left _ _)).subset hq)
  set h1 := h.modify start fun nd => { nd with totalRequestedMemory := size } with hh1
  have hsame : SameNodes h h1 := sameNodes_modify h start fun nd => ⟨rfl, rfl, rfl⟩
  have hmarks : ∀ q, SameMarks h h1 q := sameMarks_request h start size
  have hcount : (countFree h1 num.toInt.toNat (some start)).1 = num.toInt.toNat := by
    rw [countFree_eq_iff (hsame.chain hl) ((hmarks start).1.trans hfree)]
    exact ⟨hfit.1, fun q hq => (hmarks q).1.trans (hfit.2 q hq)⟩
  have hlen : ((start :: rest).take num.toInt.toNat).length = num.toInt.toNat := by
    rw [length_take]
    exact Nat.min_eq_left hfit.1
  have hchain := hsame.chain hl
  rw [← take_append_drop num.toInt.toNat (start :: rest), chain_append] at hchain
  obtain ⟨q, hseg, -⟩ := hchain
  obtain ⟨h', hmark, hnodes, hframe, hmarked⟩ := markAllocated_spec num _ 0 h1 _ q hseg
    (hl.nodup.sublist (take_sublist _ _))
  rw [hlen] at hmark
  have hmarked' : Marked h h' ((start :: rest).take num.toInt.toNat) num := by
    refine ⟨hsame.trans hnodes, fun q hq => ?_, fun q hq => (hmarked q hq).1,
      fun q hq => (hmarked q hq).2.1, fun q hq => ?_⟩
    · have hq' := hframe q hq
      exact (hmarks q).trans ⟨by rw [hq'], by rw [hq'], by rw [hq']⟩
    · rw [(hmarked q hq).2.2.1]
      simp
  refine ⟨h', fun q hq => ?_, ⟨suffix_rfl, hfree, hfit.1, hrun, hmarked'⟩, ?_, fun fuel => ?_⟩
  · rw [hframe q, spares_request hfree size q hq]
    intro hqr
    rw [hrun q hqr] at hq
    cases hq
  · have hreq : (h1.node start).totalRequestedMemory = size := by rw [hh1, Heap.modify_self]
    by_cases hmem : start ∈ (start :: rest).take num.toInt.toNat
    · exact (hmarked start hmem).2.2.2.trans hreq
    · rw [hframe start hmem, hreq]
  · simp only [findFreeZone, hfree, Bool.false_eq_true, if_false]
    rw [if_pos (by rw [hcount]; omega), hmark, Option.map_some, hmarked'.nodes.addr]

/-- What a turn without a fit leaves: nothing, what is behind the node that ended the count, or that
node again, if it is the last. -/
inductive Remains (h : Heap) (l : List NodePtr) : List NodePtr → Prop
  | none : (∀ q ∈ l, (h.node q).allocated = false) → Remains h l []
  | behind {l' : List NodePtr} : l' ≠ [] → l' <:+ l → l'.length < l.length → Remains h l l'
  | last {q : NodePtr} : [q] <:+ l → (h.node q).allocated = true → Remains h l [q]

theorem Remains.suffix {l l' : List NodePtr} (hr : Remains h l l') : l' <:+ l := by
  cases hr with
  | none _ => exact nil_suffix
  | behind _ hsuf _ => exact hsuf
  | last hsuf _ => exact hsuf

theorem remains_advance {l l1 : List NodePtr} (hl : Chain h.next (some q) (q :: l1))
    (hq : (h.node q).allocated = true) (hsuf : q :: l1 <:+ l) :
    ∃ l', Chain h.next (advance h (some q)) l' ∧ Remains h l l' ∧
      firstFit h n l' = firstFit h n (q :: l1) := by
  rcases advance_cases hl with ⟨rfl, hadv⟩ | ⟨hne, hadv⟩
  · exact ⟨[q], by rw [hadv]; exact hl, .last hsuf hq, rfl⟩
  · refine ⟨l1, hadv, .behind hne ((suffix_cons q l1).trans hsuf) ?_,
      (firstFit_cons_of_allocated hq).symm⟩
    exact Nat.lt_of_lt_of_le (Nat.lt_succ_self _) hsuf.length_le

/-- **A turn without a fit** changes no mark and misses none further on. -/
theorem findFreeZone_turn (size : UInt32) (hl : Chain h.next (some start) (start :: rest))
    (hnot : ¬StartsFree h num.toInt.toNat (start :: rest)) :
    ∃ h1 cur l', (∀ fuel, findFreeZone (fuel + 1) h (some start) size num =
        findFreeZone fuel h1 cur size num) ∧
      Spares h h1 ∧ SameNodes h h1 ∧ (∀ q, SameMarks h h1 q) ∧ Chain h1.next cur l' ∧
      Remains h (start :: rest) l' ∧
      firstFit h num.toInt.toNat l' = firstFit h num.toInt.toNat (start :: rest) := by
  by_cases hstart : (h.node start).allocated = true
  · obtain ⟨l', hl', hrem, hfit⟩ := remains_advance hl hstart suffix_rfl
    refine ⟨h, _, l', fun fuel => ?_, fun _ _ => rfl, SameNodes.refl h, fun q => ⟨rfl, rfl, rfl⟩,
      hl', hrem, hfit⟩
    simp [findFreeZone, hstart]
  · have hfree : (h.node start).allocated = false := by simpa using hstart
    set h1 := h.modify start fun nd => { nd with totalRequestedMemory := size } with hh1
    have hsame : SameNodes h h1 := sameNodes_modify h start fun nd => ⟨rfl, rfl, rfl⟩
    have hmarks : ∀ q, SameMarks h h1 q := sameMarks_request h start size
    have hspares : Spares h h1 := spares_request hfree size
    have halloc : ∀ q, (h1.node q).allocated = (h.node q).allocated := fun q => (hmarks q).1
    have hl1 := hsame.chain hl
    obtain ⟨hle, -, hchain, hcounted, hstop⟩ :=
      countFree_spec h1 num.toInt.toNat (some start) _ hl1
    have hne : (countFree h1 num.toInt.toNat (some start)).1 ≠ num.toInt.toNat := by
      rw [Ne, countFree_eq_iff hl1 ((halloc start).trans hfree)]
      rintro ⟨henough, hrun⟩
      exact hnot ⟨henough, fun q hq => (halloc q).symm.trans (hrun q hq)⟩
    have hturn : ∀ fuel, findFreeZone (fuel + 1) h (some start) size num =
        findFreeZone fuel h1 (advance h1 (countFree h1 num.toInt.toNat (some start)).2) size
          num := by
      intro fuel
      simp only [findFreeZone, hfree, Bool.false_eq_true, if_false, ← hh1]
      rw [if_neg (by omega)]
    replace hstop := hstop.resolve_left hne
    generalize countFree h1 num.toInt.toNat (some start) = c at hle hchain hcounted hne hturn hstop
    have hdrop : firstFit h num.toInt.toNat ((start :: rest).drop c.1) =
        firstFit h num.toInt.toNat (start :: rest) :=
      (firstFit_drop (by omega) fun q hq => (halloc q).symm.trans (hstop q hq)).symm
    refine ⟨h1, advance h1 c.2, ?_⟩
    cases hd : (start :: rest).drop c.1 with
    | nil =>
      -- the count ran off the list
      rw [hd] at hchain hdrop
      have hall : (start :: rest).take c.1 = start :: rest :=
        take_of_length_le (drop_eq_nil_iff.mp hd)
      rw [hall] at hcounted
      refine ⟨[], hturn, hspares, hsame, hmarks, ?_, .none fun q hq => ?_, hdrop⟩
      · rw [chain_nil.mp hchain]
        exact chain_nil.mpr rfl
      · rw [← halloc]
        exact hcounted q hq
    | cons q l1 =>
      rw [hd] at hchain hstop hdrop
      have hq := hstop q rfl
      obtain ⟨hcur, hchain'⟩ := hchain
      have hsuf : q :: l1 <:+ start :: rest := hd ▸ drop_suffix c.1 _
      obtain ⟨l', hl', hrem, hfit⟩ := remains_advance
        (show Chain h1.next (some q) (q :: l1) from ⟨rfl, hchain'⟩) hq hsuf
      rw [firstFit_congr halloc, firstFit_congr halloc] at hfit
      refine ⟨l', hturn, hspares, hsame, hmarks, by rw [hcur]; exact hl', ?_, hfit.trans hdrop⟩
      cases hrem with
      | none hall => exact .none fun p hp => (halloc p).symm.trans (hall p hp)
      | behind hne hsuf hlt => exact .behind hne hsuf hlt
      | last hsuf hlast => exact .last hsuf ((halloc _).symm.trans hlast)

/-! ### The whole search -/

/-- **What the search returns and marks**: nothing if there is no fit, else the first one. No
allocated node is written to. -/
theorem findFreeZone_found {r : UInt32} : ∀ {fuel : ℕ} {h h' : Heap} {cur : Option NodePtr}
    {l : List NodePtr}, Chain h.next cur l → findFreeZone fuel h cur size num = some (h', r) →
    Spares h h' ∧
    ((firstFit h num.toInt.toNat l = none ∧ r = 0 ∧ SameNodes h h' ∧ ∀ q, SameMarks h h' q) ∨
      ∃ start rest, firstFit h num.toInt.toNat l = some start ∧ Found h h' l num start rest ∧
        r = (h.node start).addr ∧ (h'.node start).totalRequestedMemory = size) := by
  intro fuel
  induction fuel with
  | zero => intro h h' cur l _ hres; cases hres
  | succ fuel ih =>
    intro h h' cur l hl hres
    cases cur with
    | none =>
      obtain rfl := hl.eq_nil
      cases hres
      exact ⟨fun _ _ => rfl, .inl ⟨rfl, rfl, SameNodes.refl h, fun q => ⟨rfl, rfl, rfl⟩⟩⟩
    | some start =>
      obtain ⟨rest, rfl, -⟩ := hl.eq_cons
      by_cases hfit : StartsFree h num.toInt.toNat (start :: rest)
      · obtain ⟨h'', hspares, hfound, hreq, hturn⟩ := exists_found size hl hfit
        rw [hturn] at hres
        cases hres
        exact ⟨hspares, .inr ⟨start, rest, by rw [firstFit, if_pos hfit], hfound, rfl, hreq⟩⟩
      · obtain ⟨h1, cur, l', hturn, hspares1, hsame, hmarks, hl', hrem, heq⟩ :=
          findFreeZone_turn size hl hfit
        rw [hturn] at hres
        have hcongr : firstFit h1 num.toInt.toNat l' = firstFit h num.toInt.toNat (start :: rest) :=
          (firstFit_congr (fun q => (hmarks q).1) l').trans heq
        obtain ⟨hspares, hres'⟩ := ih hl' hres
        refine ⟨fun q hq => ?_, ?_⟩
        · rw [hspares q (by rw [(hmarks q).1]; exact hq), hspares1 q hq]
        rcases hres' with ⟨hnone, hr, hn, hm⟩ | ⟨p, rest', hsome, hfound, hr, hreq⟩
        · exact .inl ⟨hcongr.symm.trans hnone, hr, hsame.trans hn, fun q => (hmarks q).trans (hm q)⟩
        · exact .inr ⟨p, rest', hcongr.symm.trans hsome,
            hfound.of_request hsame hmarks hrem.suffix, hr.trans (hsame.addr p), hreq⟩

theorem getLast?_of_suffix {l l' : List NodePtr} (hsuf : l' <:+ l) (hne : l' ≠ []) :
    l.getLast? = l'.getLast? := by
  obtain ⟨pre, rfl⟩ := hsuf
  exact List.getLast?_append_of_ne_nil pre hne

/-- There is a fit, or the last node is free. -/
def Finishes (h : Heap) (num : Int32) (l : List NodePtr) : Prop :=
  firstFit h num.toInt.toNat l ≠ none ∨ ∀ q, l.getLast? = some q → (h.node q).allocated = false

/-- **The search ends** exactly if there is a fit, or if the last node is free. -/
theorem findFreeZone_ends (size : UInt32) : ∀ {k : ℕ} {h : Heap} {cur : Option NodePtr}
    {l : List NodePtr}, Chain h.next cur l →
    (∀ r, findFreeZone k h cur size num = some r → Finishes h num l) ∧
      (l.length < k → Finishes h num l → ∃ r, findFreeZone k h cur size num = some r) := by
  intro k
  induction k with
  | zero => exact fun _ => ⟨nofun, fun hk => absurd hk (Nat.not_lt_zero _)⟩
  | succ k ih =>
    intro h cur l hl
    cases cur with
    | none =>
      obtain rfl := hl.eq_nil
      exact ⟨fun _ _ => .inr nofun, fun _ _ => ⟨_, rfl⟩⟩
    | some start =>
      obtain ⟨rest, rfl, -⟩ := hl.eq_cons
      by_cases hfit : StartsFree h num.toInt.toNat (start :: rest)
      · obtain ⟨h', -, -, -, hturn⟩ := exists_found size hl hfit
        refine ⟨fun _ _ => .inl ?_, fun _ _ => ⟨_, hturn _⟩⟩
        rw [firstFit, if_pos hfit]
        exact Option.some_ne_none start
      · obtain ⟨h1, cur, l', hturn, -, -, hmarks, hl', hrem, heq⟩ :=
          findFreeZone_turn size hl hfit
        have hends : Finishes h1 num l' ↔ Finishes h num (start :: rest) := by
          rw [Finishes, Finishes, firstFit_congr fun q => (hmarks q).1, heq]
          simp only [(hmarks _).1]
          refine or_congr_right ?_
          cases hrem with
          | none hall => exact iff_of_true nofun fun q hq => hall q (mem_of_getLast? hq)
          | behind hne hsuf _ => rw [getLast?_of_suffix hsuf hne]
          | last hsuf _ => rw [getLast?_of_suffix hsuf (cons_ne_nil _ _)]
        obtain ⟨hall, hlen⟩ := ih hl'
        rw [hturn, ← hends]
        refine ⟨hall, fun hk he => ?_⟩
        cases hrem with
        | none _ => exact hlen (Nat.zero_lt_of_lt (Nat.lt_of_succ_lt_succ hk)) he
        | behind _ _ hlt => exact hlen (by omega) he
        | last hsuf hp =>
          -- the last node is allocated, so neither is there a fit at it
          rcases hends.mp he with hsome | hlast
          · exact absurd (heq.symm.trans (firstFit_cons_of_allocated hp)) hsome
          · have hfree := hlast _ (getLast?_of_suffix hsuf (cons_ne_nil _ _))
            rw [getLast_singleton, hp] at hfree
            cases hfree

end AthenX.KHeap
