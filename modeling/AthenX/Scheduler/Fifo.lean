import AthenX.Scheduler.Lists
import AthenX.Scheduler.Locks

/-!
# The ready list is a queue

`AddReady` and `NextReady` by themselves, in any order: what comes out is what was put in,
first in, first out. The list is threaded through the tasks, so it is a queue only as long
as no task is added that some list holds already.
-/

namespace AthenX.Scheduler

open Linked List

/-- The task is met on none of the three lists. -/
structure OnNoList (s : Sched) (t : PcbPtr) : Prop where
  ready : ∀ l, ¬Seg s.next s.readyListHead l (some t)
  sleep : ∀ l, ¬Seg s.next s.sleepingListHead l (some t)
  term : ∀ l, ¬Seg s.next s.terminatedListHead l (some t)

/-- The ready list is the queue `R`. -/
abbrev ReadyQueue (s : Sched) (R : List PcbPtr) : Prop :=
  Queue s.next s.readyListHead s.readyListTail R

/-! ### The two calls -/

section

variable {s : Sched} {R : List PcbPtr} {t q : PcbPtr}

theorem OnNoList.notMem (h : OnNoList s t) (hR : ReadyQueue s R) : t ∉ R := by
  intro hmem
  obtain ⟨l, hseg⟩ := hR.chain.exists_seg hmem
  exact h.ready l hseg

/-- `AddReady` puts the task at the end. -/
theorem ReadyQueue.add (h : ReadyQueue s R) (ht : t ∉ R) :
    ReadyQueue (s.addReady t) (R ++ [t]) := h.put (Sched.addReady_next s t) ht

/-- `NextReady` takes the first task, if there is one. -/
theorem ReadyQueue.next (h : ReadyQueue s R) :
    s.nextReady.1 = R.head? ∧ ReadyQueue s.nextReady.2 R.tail := by
  cases R with
  | nil =>
    have hhead : s.readyListHead = none := h.chain
    rw [Sched.nextReady_of_none hhead]
    exact ⟨rfl, h⟩
  | cons r R =>
    have hhead : s.readyListHead = some r := h.chain.1
    rw [Sched.nextReady_of_some hhead]
    refine ⟨rfl, ?_⟩
    rw [ReadyQueue, hhead] at h
    refine h.dequeue fun q hq => ?_
    rw [Sched.popReady_next, if_neg]
    rintro rfl
    exact (nodup_cons.mp h.nodup).1 hq

/-- `NextReady` clears the link of the task that it returns, and no other one. -/
theorem nextReady_next (s : Sched) (q : PcbPtr) :
    s.nextReady.2.next q = if s.nextReady.1 = some q then none else s.next q := by
  cases hhead : s.readyListHead with
  | none => simp [Sched.nextReady_of_none hhead]
  | some r =>
    rw [Sched.nextReady_of_some hhead, Sched.popReady_next]
    simp [eq_comm]

end

/-! ### Runs -/

/-- Calls of `AddReady`, with tasks on no list, and of `NextReady`, which returned `out`. -/
inductive FifoRun (s₀ : Sched) : List PcbPtr → List (Option PcbPtr) → Sched → Prop
  | nil : FifoRun s₀ [] [] s₀
  | add {added out s t} : FifoRun s₀ added out s → OnNoList s t →
      FifoRun s₀ (added ++ [t]) out (s.addReady t)
  | next {added out s} : FifoRun s₀ added out s →
      FifoRun s₀ added (out ++ [s.nextReady.1]) s.nextReady.2

/-- `R` is on the list, and what was returned is linked to nothing unless it was added again. -/
structure Follows (s : Sched) (all : List PcbPtr) (out : List (Option PcbPtr))
    (R : List PcbPtr) : Prop where
  queue : ReadyQueue s R
  order : all = out.reduceOption ++ R
  link : ∀ t ∈ out.reduceOption, t ∉ R → s.next t = none

section

variable {s : Sched} {all R : List PcbPtr} {out : List (Option PcbPtr)} {t : PcbPtr}

theorem Follows.add (h : Follows s all out R) (ht : t ∉ R) :
    Follows (s.addReady t) (all ++ [t]) out (R ++ [t]) where
  queue := h.queue.add ht
  order := by rw [h.order, append_assoc]
  link q hq hqR := by
    simp only [mem_append, mem_singleton, not_or] at hqR
    rw [Sched.addReady_next, if_neg fun hc => hqR.1 (h.queue.rho.mem_tail hc.2), if_neg hqR.2]
    exact h.link q hq hqR.1

theorem Follows.next (h : Follows s all out R) :
    Follows s.nextReady.2 all (out ++ [s.nextReady.1]) R.tail := by
  obtain ⟨hres, hqueue⟩ := h.queue.next
  refine ⟨hqueue, ?_, ?_⟩
  · rw [h.order, hres]
    cases R <;> simp [reduceOption_append]
  · intro q hq hqR
    rw [nextReady_next]
    split
    · rfl
    · next hne =>
      -- `q` was returned before, and is not the first task of the list
      rw [hres] at hne hq
      cases R with
      | nil => exact h.link q (by simpa [reduceOption_append] using hq) (by simp)
      | cons r R =>
        have hqr : q ≠ r := fun hc => hne (by rw [hc]; rfl)
        refine h.link q ?_ (by simpa [hqr] using hqR)
        simpa [reduceOption_append, hqr] using hq

end

theorem FifoRun.follows {s0 s : Sched} {R₀ added : List PcbPtr} {out : List (Option PcbPtr)}
    (h : FifoRun s0 added out s) (h0 : ReadyQueue s0 R₀) :
    ∃ R, Follows s (R₀ ++ added) out R := by
  induction h with
  | nil => exact ⟨R₀, h0, by simp, by simp⟩
  | @add _ _ _ t _ ht ih =>
    obtain ⟨R, hR⟩ := ih
    refine ⟨R ++ [t], ?_⟩
    rw [← append_assoc]
    exact hR.add (ht.notMem hR.queue)
  | next _ ih =>
    obtain ⟨R, hR⟩ := ih
    exact ⟨R.tail, hR.next⟩

/-- **The ready list is a queue.** After any calls it ends with null, and the tasks returned and
then those on it are the ones that were on it and those added, in order. A task that is returned is
linked to nothing, unless it is on the list again. -/
theorem fifo_of_run {s₀ s : Sched} {R₀ added : List PcbPtr} {out : List (Option PcbPtr)}
    (h₀ : ReadyQueue s₀ R₀) (h : FifoRun s₀ added out s) :
    ∃ R, ReadyQueue s R ∧ R₀ ++ added = out.reduceOption ++ R ∧
      (s.nextReady.1 = none ↔ out.reduceOption = R₀ ++ added) ∧
      (∀ t, s.nextReady.1 = some t → s.nextReady.2.next t = none) ∧
      ∀ t ∈ out.reduceOption, t ∉ R → s.next t = none := by
  obtain ⟨R, hR⟩ := h.follows h₀
  refine ⟨R, hR.queue, hR.order, ?_, ?_, hR.link⟩
  · rw [hR.queue.next.1, hR.order]
    simp
  · intro t ht
    rw [nextReady_next, if_pos ht]

/-- Two tasks are added, and one is returned. -/
theorem fifo_of_run_two : ReadyQueue bootMachine.sched [] ∧ ∃ s R,
    FifoRun bootMachine.sched [1, 2] [some 1] s ∧ ReadyQueue s R ∧ [] ++ [1, 2] = [1] ++ R := by
  have h0 : ReadyQueue bootMachine.sched [] := ⟨rfl, rfl⟩
  have hone : OnNoList bootMachine.sched 1 :=
    ⟨fun _ hl => by simpa using Chain.mem_of_seg h0.chain hl,
      fun _ hl => by simpa using Chain.mem_of_seg (l := []) rfl hl,
      fun _ hl => by simpa using Chain.mem_of_seg (l := []) rfl hl⟩
  have htwo : OnNoList (bootMachine.sched.addReady 1) 2 :=
    ⟨fun _ hl => by simpa using Chain.mem_of_seg (h0.add (by simp)).chain hl,
      fun _ hl => by simpa using Chain.mem_of_seg (l := []) rfl hl,
      fun _ hl => by simpa using Chain.mem_of_seg (l := []) rfl hl⟩
  have hrun := ((FifoRun.nil.add hone).add htwo).next
  obtain ⟨R, hR, horder, -⟩ := fifo_of_run h0 hrun
  exact ⟨h0, _, R, hrun, hR, horder⟩

end AthenX.Scheduler
