import AthenX.KHeap.FirstFit
import AthenX.KHeap.Sizes

/-!
# Releasing what is not a live pointer

`sys_free_memory` should refuse an address that is not the start of a live allocation. It does so if
no node has the address, or a free one. It does not look at `first_block`, though: at a later block
of an allocation it clears as many nodes as that has, and the start of whatever lies behind.
-/

namespace AthenX.KHeap

open Linked

/-- Any calls that return, with the allocations not freed since. -/
inductive History (h₀ : Heap) : Heap → List Allocation → Prop
  | start : History h₀ h₀ []
  | allocate {h h' : Heap} {live : List Allocation} {size : Int32} {p : UInt32} :
      History h₀ h live → Returns (sysAllocateMemory · h size) (h', p) →
      History h₀ h' (if p = 0 then live else live ++ [⟨p, size⟩])
  | free {h h' : Heap} {live : List Allocation} {addr r : UInt32} :
      History h₀ h live → Returns (sysFreeMemory · h addr) (h', r) →
      History h₀ h' (live.filter fun a => a.ptr ≠ addr)

/-- The call returns the address, and the heap is as before. -/
def Rejects (h : Heap) (addr : UInt32) : Prop := Returns (sysFreeMemory · h addr) (h, addr)

/-- An allocated block that is not the first of its allocation starts at the address. -/
def Interior (h : Heap) (ns : List NodePtr) (addr : UInt32) : Prop :=
  ∃ q ∈ ns, (h.node q).addr = addr ∧ (h.node q).allocated = true ∧ (h.node q).firstBlock = false

/-- After any calls, an allocated node belongs to a run, whose first address was returned. -/
structure MarksLive (h₀ h : Heap) (ns : List NodePtr) (live : List Allocation) : Prop where
  nodes : SameNodes h₀ h
  used : ∀ q ∈ ns, (h.node q).allocated = true → 0 < (h.node q).numBlockUsed.toNat
  first : ∀ q ∈ ns, (h.node q).allocated = true → (h.node q).firstBlock = true →
    ∃ a ∈ live, a.ptr = (h.node q).addr

section

variable {h₀ h h' : Heap} {ns : List NodePtr} {live : List Allocation} {size : Int32}
  {p addr r : UInt32} {q : NodePtr}

/-! ### One call -/

namespace MarksLive

section

variable (hm : MarksLive h₀ h ns live)

include hm

theorem chain (hi : Initial h₀ ns) : h.Chained ns := hm.nodes.chained hi.chain

theorem spaced (hi : Initial h₀ ns) : Spaced h ns :=
  hm.nodes.spaced hi.spaced

theorem of_sameMarks {live' : List Allocation} (hn : SameNodes h h')
    (hmarks : ∀ q ∈ ns, (h'.node q).allocated = true → SameMarks h h' q)
    (hlive : ∀ q ∈ ns, (h'.node q).allocated = true → (h'.node q).firstBlock = true →
      ∀ a ∈ live, a.ptr = (h.node q).addr → a ∈ live') : MarksLive h₀ h' ns live' where
  nodes := hm.nodes.trans hn
  used := fun q hq hal => by
    obtain ⟨h1, -, h3⟩ := hmarks q hq hal
    rw [h3]
    exact hm.used q hq (h1.symm.trans hal)
  first := fun q hq hal hfirst => by
    obtain ⟨h1, h2, -⟩ := hmarks q hq hal
    obtain ⟨a, ha, hptr⟩ := hm.first q hq (h1.symm.trans hal) (h2.symm.trans hfirst)
    exact ⟨a, hlive q hq hal hfirst a ha hptr, hptr.trans (hn.addr q).symm⟩

/-- **An allocation of any size.** -/
theorem allocate (hi : Initial h₀ ns) (hret : Returns (sysAllocateMemory · h size) (h', p)) :
    MarksLive h₀ h' ns (if p = 0 then live else live ++ [⟨p, size⟩]) := by
  have hmono : ∀ a ∈ live, a ∈ if p = 0 then live else live ++ [⟨p, size⟩] := by
    intro a ha
    split
    · exact ha
    · exact List.mem_append_left _ ha
  obtain ⟨fuel, hres⟩ := hret
  rcases (sysAllocateMemory_spec (hm.chain hi) hres).2 with ⟨-, hn, hmarks⟩ |
    ⟨start, rest, -, hf, rfl⟩
  · exact hm.of_sameMarks hn (fun q _ _ => hmarks q) fun _ _ _ _ a ha _ => hmono a ha
  have hne : (h.node start).addr ≠ 0 :=
    (hm.spaced hi).addr_ne_zero (hf.tail.subset List.mem_cons_self)
  have hmark := hf.marked
  rw [if_neg hne] at hmono ⊢
  refine ⟨hm.nodes.trans hmark.nodes, fun q hq hal => ?_, fun q hq hal hfirst => ?_⟩
  · by_cases hqr : q ∈ (start :: rest).take ((size + 1023) / 1024 : Int32).toInt.toNat
    · -- a run with a node has a positive number of blocks
      have hpos : 0 < ((size + 1023) / 1024 : Int32).toInt.toNat := by
        by_contra hz
        rw [Nat.eq_zero_of_not_pos hz] at hqr
        cases hqr
      rw [hmark.used q hqr, toNat_toUInt32_of_nonneg (by omega)]
      exact hpos
    · obtain ⟨h1, -, h3⟩ := hmark.frame q hqr
      rw [h3]
      exact hm.used q hq (h1.symm.trans hal)
  · rw [hmark.nodes.addr q]
    by_cases hqr : q ∈ (start :: rest).take ((size + 1023) / 1024 : Int32).toInt.toNat
    · have hhead := (hmark.first q hqr).mp hfirst
      have hstart : q = start := by
        rw [List.head?_take] at hhead
        split at hhead
        · cases hhead
        · exact (Option.some.inj hhead).symm
      rw [hstart]
      exact ⟨_, List.mem_append_right live List.mem_cons_self, rfl⟩
    · obtain ⟨h1, h2, -⟩ := hmark.frame q hqr
      obtain ⟨a, ha, hptr⟩ := hm.first q hq (h1.symm.trans hal) (h2.symm.trans hfirst)
      exact ⟨a, hmono a ha, hptr⟩

theorem free_clears (hi : Initial h₀ ns) (hq : q ∈ ns) {fuel : ℕ}
    (hres : sysFreeMemory fuel h (h.node q).addr = some (h', r)) : (h'.node q).allocated = false :=
  sysFreeMemory_clears (hm.chain hi) (hm.spaced hi) hq (hm.used q hq) hres

/-- **A release of any address.** -/
theorem free (hi : Initial h₀ ns) (hret : Returns (sysFreeMemory · h addr) (h', r)) :
    MarksLive h₀ h' ns (live.filter fun a => a.ptr ≠ addr) := by
  obtain ⟨fuel, hres⟩ := hret
  refine hm.of_sameMarks (sameNodes_sysFreeMemory hres) (fun q _ hal => ?_)
    fun q hq hal _ a ha hptr => List.mem_filter.mpr ⟨ha, decide_eq_true ?_⟩
  · rcases shrinks_sysFreeMemory hres q with heq | hfree
    · rw [SameMarks, heq]
      exact ⟨rfl, rfl, rfl⟩
    · rw [hfree] at hal
      cases hal
  · -- a node that is still allocated is not at the address
    rintro rfl
    rw [hptr] at hres
    rw [hm.free_clears hi hq hres] at hal
    cases hal

end

end MarksLive

/-- **After any calls.** -/
theorem History.marksLive (hr : History h₀ h live) (hi : Initial h₀ ns) :
    MarksLive h₀ h ns live := by
  induction hr with
  | start =>
    refine ⟨SameNodes.refl h₀, fun q hq hal => ?_, fun q hq hal => ?_⟩ <;>
    · rw [hi.free q hq] at hal
      cases hal
  | allocate _ hret ih => exact ih.allocate hi hret
  | free _ hret ih => exact ih.free hi hret

/-! ### Which addresses are refused -/

theorem rejects_of_free (hc : h.Chained ns) (hs : Spaced h ns)
    (hfree : ∀ q ∈ ns, (h.node q).addr = addr → (h.node q).allocated = false) : Rejects h addr := by
  refine ⟨ns.length + 1, ?_⟩
  by_cases hnode : ∃ q ∈ ns, (h.node q).addr = addr
  · obtain ⟨q, hq, rfl⟩ := hnode
    have hfind := findNode_spec hc hq (fun q' hq' heq => hs.addr_inj hq' hq heq)
      (Nat.le_succ ns.length)
    simp [sysFreeMemory, hfind, hfree q hq rfl, Bool.false_eq_true]
  · have hfind := findNode_of_notAddr hc fun q hq haddr => hnode ⟨q, hq, haddr⟩
    simp only [sysFreeMemory, hfind]

theorem not_rejects_of_interior (hi : Initial h₀ ns) (hr : History h₀ h live)
    (hint : Interior h ns addr) : ¬Rejects h addr := by
  rintro ⟨fuel, hres⟩
  obtain ⟨q, hq, rfl, hal, -⟩ := hint
  rw [(hr.marksLive hi).free_clears hi hq hres] at hal
  cases hal

/-- **Which addresses are refused**: those at which no later block of an allocation starts. -/
theorem rejects_iff (hi : Initial h₀ ns) (hr : History h₀ h live)
    (haddr : ∀ a ∈ live, a.ptr ≠ addr) : Rejects h addr ↔ ¬Interior h ns addr := by
  have hm := hr.marksLive hi
  constructor
  · exact fun hrej hint => not_rejects_of_interior hi hr hint hrej
  · intro hint
    refine rejects_of_free (hm.chain hi) (hm.spaced hi) fun q hq hqa => ?_
    by_contra hal
    rw [Bool.not_eq_false] at hal
    cases hfirst : (h.node q).firstBlock with
    | false => exact hint ⟨q, hq, hqa, hal, hfirst⟩
    | true =>
      obtain ⟨a, ha, hptr⟩ := hm.first q hq hal hfirst
      exact haddr a ha (hptr.trans hqa)

end

/-- Two blocks and, behind them, a third one that is another allocation. -/
def neighbourHeap : Heap := busyHeap [1500, 100]

theorem history_neighbourHeap : History rowHeap neighbourHeap [⟨0x1400, 1500⟩, ⟨0x1C00, 100⟩] := by
  have h1 : History rowHeap (busyHeap [1500]) [⟨0x1400, 1500⟩] :=
    .allocate (p := 0x1400) .start ⟨5, rfl⟩
  exact .allocate (p := 0x1C00) h1 ⟨5, rfl⟩

/-- The first node of the list is never handed out, so its address is refused. -/
theorem rejects_neighbourHeap :
    History rowHeap neighbourHeap [⟨0x1400, 1500⟩, ⟨0x1C00, 100⟩] ∧
      Rejects neighbourHeap 0x1000 := by
  refine ⟨history_neighbourHeap,
    (rejects_iff initial_rowHeap history_neighbourHeap (by decide)).mpr ?_⟩
  rintro ⟨q, hq, haddr, hal, -⟩
  fin_cases hq
  · exact absurd hal (by decide)
  · exact absurd haddr (by decide)
  · exact absurd haddr (by decide)
  · exact absurd haddr (by decide)

/-- With the second block the one behind it is cleared, which is still in use. -/
theorem not_rejects_neighbourHeap :
    History rowHeap neighbourHeap [⟨0x1400, 1500⟩, ⟨0x1C00, 100⟩] ∧ ¬Rejects neighbourHeap 0x1800 ∧
      (neighbourHeap.node 0x148).allocated = true ∧
      (sysFreeMemory 4 neighbourHeap 0x1800).map (fun r => ((r.1.node 0x148).allocated, r.2)) =
        some (false, 0) := by
  refine ⟨history_neighbourHeap, ?_, by decide, by decide⟩
  exact not_rejects_of_interior initial_rowHeap history_neighbourHeap
    ⟨0x130, by decide, by decide, by decide⟩

end AthenX.KHeap
