import AthenX.Scheduler.Basic

/-!
# The lists of the scheduler

The ready list, the sleeping list and the list of terminated tasks are linked through the
same field, so that they are lists at all only because no task is on two of them.
`Lists s R L T` says what the three lists are, and each function is given by what it does
to them.
-/

namespace AthenX.Scheduler

open Linked List

/-- The ready list is `R`, the sleeping list `L` and that of terminated tasks `T`. -/
structure Lists (s : Sched) (R L T : List PcbPtr) : Prop where
  ready : Queue s.next s.readyListHead s.readyListTail R
  sleep : Queue s.next s.sleepingListHead s.sleepingListTail L
  term : Queue s.next s.terminatedListHead s.terminatedListTail T
  nodup : (R ++ L ++ T).Nodup

/-! ### Links -/

namespace Sched

/-- What `PerformButler` does with the head `work` of the terminated tasks. -/
def freeTerminated (s : Sched) (work : PcbPtr) : Sched :=
  Sched.pcbFree { s with
    terminatedListHead := s.next work
    terminatedListTail := if s.next work = none then none else s.terminatedListTail } work

theorem linkLast_next (s : Sched) (head tail : Option PcbPtr) (task q : PcbPtr) :
    (s.linkLast head tail task).next q =
      if head ≠ none ∧ tail = some q then some task else s.next q := by
  rw [next, linkLast_pcb]
  split <;> rfl

theorem addReady_next (s : Sched) (task q : PcbPtr) :
    (s.addReady task).next q =
      if s.readyListHead ≠ none ∧ s.readyListTail = some q then some task
      else if q = task then none else s.next q := by
  show (linkLast _ s.readyListHead s.readyListTail task).next q = _
  rw [linkLast_next]
  refine if_congr Iff.rfl rfl ?_
  rw [next, modify_pcb]
  split <;> rfl

theorem linkLast_asleep_next (s : Sched) (head tail : Option PcbPtr) (task q : PcbPtr) :
    ((s.modify task fun b => { b with state := .sleeping }).linkLast head tail task).next q =
      if head ≠ none ∧ tail = some q then some task else s.next q := by
  rw [linkLast_next]
  refine if_congr Iff.rfl rfl ?_
  rw [next, modify_pcb]
  split
  · next h => rw [h]; rfl
  · rfl

theorem addSleeping_next (s : Sched) (task q : PcbPtr) : (s.addSleeping task).next q =
      if s.sleepingListHead ≠ none ∧ s.sleepingListTail = some q then some task else s.next q :=
  linkLast_asleep_next s _ _ task q

theorem addTerminated_next (s : Sched) (task q : PcbPtr) :
    (s.addTerminated task).next q =
      if s.terminatedListHead ≠ none ∧ s.terminatedListTail = some q then some task
      else s.next q :=
  linkLast_asleep_next s _ _ task q

theorem popReady_next (s : Sched) (rv q : PcbPtr) :
    (s.popReady rv).next q = if q = rv then none else s.next q := by
  rw [next, popReady, modify_pcb]
  split <;> rfl

theorem addReady_heads (s : Sched) (p : PcbPtr) :
    (s.addReady p).sleepingListHead = s.sleepingListHead ∧
    (s.addReady p).sleepingListTail = s.sleepingListTail ∧
    (s.addReady p).terminatedListHead = s.terminatedListHead ∧
    (s.addReady p).terminatedListTail = s.terminatedListTail := by
  rw [addReady_eq]
  exact ⟨rfl, rfl, rfl, rfl⟩

end Sched

namespace Lists

variable {s s' : Sched} {R L T : List PcbPtr} {p : PcbPtr}

section

variable (h : Lists s R L T)

include h

theorem ready_notMem_sleep : ∀ q ∈ R, q ∉ L := by
  intro q hR hL
  have := (nodup_append.mp (nodup_append.mp h.nodup).1).2.2 q hR q hL
  exact this rfl

theorem notMem_term : ∀ q ∈ R ++ L, q ∉ T := by
  intro q hq hT
  exact (nodup_append.mp h.nodup).2.2 q hq q hT rfl

theorem congr (hnext : ∀ q ∈ R ++ L ++ T, s'.next q = s.next q)
    (hheads : s'.readyListHead = s.readyListHead ∧ s'.readyListTail = s.readyListTail ∧
      s'.sleepingListHead = s.sleepingListHead ∧ s'.sleepingListTail = s.sleepingListTail ∧
      s'.terminatedListHead = s.terminatedListHead ∧
      s'.terminatedListTail = s.terminatedListTail) : Lists s' R L T := by
  obtain ⟨h1, h2, h3, h4, h5, h6⟩ := hheads
  refine ⟨?_, ?_, ?_, h.nodup⟩
  · rw [h1, h2]
    exact h.ready.congr fun q hq => hnext q (by simp [hq])
  · rw [h3, h4]
    exact h.sleep.congr fun q hq => hnext q (by simp [hq])
  · rw [h5, h6]
    exact h.term.congr fun q hq => hnext q (by simp [hq])

theorem modify (q : PcbPtr) {f : Pcb → Pcb} (hf : ∀ b, (f b).next = b.next) :
    Lists (s.modify q f) R L T := by
  refine h.congr ?_ ⟨rfl, rfl, rfl, rfl, rfl, rfl⟩
  intro r _
  rw [Sched.next, Sched.modify_pcb]
  split
  · next hr => rw [hf, hr]; rfl
  · rfl

/-- **`AddReady`.** -/
theorem addReady (hp : p ∉ R ++ L ++ T) : Lists (s.addReady p) (R ++ [p]) L T := by
  simp only [mem_append, not_or] at hp
  obtain ⟨⟨hR, hL⟩, hT⟩ := hp
  have hnext := Sched.addReady_next s p
  obtain ⟨h3, h4, h5, h6⟩ := Sched.addReady_heads s p
  refine ⟨h.ready.put hnext hR, ?_, ?_, ?_⟩
  · rw [h3, h4]
    exact h.ready.put_other hnext h.sleep hL fun q hq hc => h.ready_notMem_sleep q hc hq
  · rw [h5, h6]
    exact h.ready.put_other hnext h.term hT fun q hq hc => h.notMem_term q (mem_append_left _ hc) hq
  · have hperm : (R ++ [p] ++ L ++ T).Perm (p :: (R ++ L ++ T)) := by
      simp only [append_assoc]
      exact perm_middle
    exact hperm.nodup_iff.mpr (nodup_cons.mpr ⟨by simp [hR, hL, hT], h.nodup⟩)

/-- **`AddSleeping`**, on a task whose link is null. -/
theorem addSleeping (hp : p ∉ R ++ L ++ T) (hn : s.next p = none) :
    Lists (s.addSleeping p) R (L ++ [p]) T := by
  simp only [mem_append, not_or] at hp
  obtain ⟨⟨hR, hL⟩, hT⟩ := hp
  have hnext : ∀ q, (s.addSleeping p).next q =
      if s.sleepingListHead ≠ none ∧ s.sleepingListTail = some q then some p
      else if q = p then none else s.next q := by
    intro q
    rw [Sched.addSleeping_next]
    refine if_congr Iff.rfl rfl ?_
    split
    · next hq => rw [hq, hn]
    · rfl
  have hsame := Sched.addSleeping_eq s p
  refine ⟨?_, h.sleep.put hnext hL, ?_, ?_⟩
  · rw [show (s.addSleeping p).readyListHead = s.readyListHead by rw [hsame],
      show (s.addSleeping p).readyListTail = s.readyListTail by rw [hsame]]
    exact h.sleep.put_other hnext h.ready hR fun q hq hc => h.ready_notMem_sleep q hq hc
  · rw [show (s.addSleeping p).terminatedListHead = s.terminatedListHead by rw [hsame],
      show (s.addSleeping p).terminatedListTail = s.terminatedListTail by rw [hsame]]
    exact h.sleep.put_other hnext h.term hT
      fun q hq hc => h.notMem_term q (mem_append_right _ hc) hq
  · have hperm : (R ++ (L ++ [p]) ++ T).Perm (p :: (R ++ L ++ T)) := by
      simp only [append_assoc, singleton_append]
      rw [← append_assoc R L (p :: T), ← append_assoc R L T]
      exact perm_middle
    exact hperm.nodup_iff.mpr (nodup_cons.mpr ⟨by simp [hR, hL, hT], h.nodup⟩)

end

theorem head_eq (h : Lists s (p :: R) L T) : s.readyListHead = some p := h.ready.chain.1

/-- **`NextReady`** on a list that starts with `p`. -/
theorem popReady (h : Lists s (p :: R) L T) :
    Lists (s.popReady p) R L T ∧ (s.popReady p).next p = none := by
  have hnd := h.nodup
  simp only [cons_append, nodup_cons] at hnd
  have hne : ∀ q ∈ R ++ L ++ T, (s.popReady p).next q = s.next q := by
    intro q hq
    rw [Sched.popReady_next, if_neg]
    rintro rfl
    exact hnd.1 hq
  refine ⟨⟨?_, ?_, ?_, hnd.2⟩, ?_⟩
  · have hq := h.ready
    rw [h.head_eq] at hq
    exact hq.dequeue fun q hq => hne q (by simp [hq])
  · exact h.sleep.congr fun q hq => hne q (by simp [hq])
  · exact h.term.congr fun q hq => hne q (by simp [hq])
  · rw [Sched.popReady_next, if_pos rfl]

theorem updateTimeUsed (h : Lists s R L T) : Lists s.updateTimeUsed R L T := by
  refine h.congr ?_ ?_
  · intro q _
    rw [Sched.next, Sched.updateTimeUsed_pcb]
    split <;> rfl
  · rw [Sched.updateTimeUsed_eq]
    exact ⟨rfl, rfl, rfl, rfl, rfl, rfl⟩

end Lists

end AthenX.Scheduler
