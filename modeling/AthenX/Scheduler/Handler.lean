import AthenX.Scheduler.Fifo
import AthenX.Scheduler.Sleep

/-!
# One call of `IrqTimerHandler`

`IrqTimerHandler` detaches the sleeping list, and puts each task on the ready list if its time has
come and back otherwise, through the link that it has just read. The call is made under
`LockAndPostpone`, so it ends without a task change. Nothing is assumed of the terminated tasks.
-/

namespace AthenX.Scheduler

open Linked Settling List

/-- The ready list is `R`, the sleeping list `L`, and no task is on both. -/
structure TwoLists (s : Sched) (R L : List PcbPtr) : Prop where
  ready : ReadyQueue s R
  sleep : Queue s.next s.sleepingListHead s.sleepingListTail L
  nodup : (R ++ L).Nodup

/-- The machine under `LockAndPostpone`. -/
structure Postponed (m : Machine) : Prop where
  irq : m.sched.irqDisableCounter ≠ 0
  postpone : m.sched.postponeTaskCounter ≠ 0
  interrupts : m.interrupts = false

/-- A call of `IrqTimerHandler`: `m'` is the first state behind it. -/
def Handles (m m' : Machine) : Prop :=
  Postponed m ∧ ∃ k, m.code = .irqTimerHandler :: k ∧ Lands step (fun a => a.code = k) m m'

/-- Does the task sleep until a time that has come when the counter is `c`? -/
def Sched.dueAt (s : Sched) (c : UInt32) (q : PcbPtr) : Bool :=
  decide ((s.pcb q).sleepUntil ≤ c)

/-! ### One call -/

section

variable {m m' : Machine} {s : Sched} {R L : List PcbPtr} {k : List Op}

theorem TwoLists.modify (h : TwoLists s R L) (q : PcbPtr) {f : Pcb → Pcb}
    (hf : ∀ b, (f b).next = b.next) : TwoLists (s.modify q f) R L := by
  have hnext : ∀ r, (s.modify q f).next r = s.next r := by
    intro r
    rw [Sched.next, Sched.modify_pcb]
    split
    · next hr => rw [hf, hr]; rfl
    · rfl
  exact ⟨h.ready.congr fun r _ => hnext r, h.sleep.congr fun r _ => hnext r, h.nodup⟩

/-- What the end of the handler leaves: maybe less time, and a task change noted. -/
structure Ended (s : Sched) (m' : Machine) : Prop where
  postponed : Postponed m'
  counter : m'.sched.counter = s.counter
  sleepUntil : ∀ q, (m'.sched.pcb q).sleepUntil = (s.pcb q).sleepUntil
  lists : ∀ R L, TwoLists s R L → TwoLists m'.sched R L

theorem lands_quantum (m : Machine) (s : Sched) {i p : ℤ} {f : Bool} (hi : i ≠ 0) (hp : p ≠ 0) :
    ∃ m', Lands step (fun a => a.code = k) (m.closed s i p f (.quantum :: k)) m' ∧
      Ended s m' := by
  have hquiet : ∀ {m m' : Machine}, step m = some m' → k.length < m.code.length →
      Quiet step (fun a => a.code = k) m m' := by
    intro m m' hstep hlen
    refine Quiet.single (fun hc => ?_) hstep
    rw [hc] at hlen
    exact absurd hlen (Nat.lt_irrefl _)
  cases hc : s.currentPCB with
  | none =>
    have hstep : step (m.closed s i p f (.quantum :: k)) = some (m.closed s i p f k) := by
      have hc1 : (s.locked i p f).currentPCB = none := hc
      simp only [step, exec, Machine.closed, hc1]
      rfl
    exact ⟨_, (hquiet hstep (by simp [Machine.closed])).lands (.here rfl), ⟨hi, hp, rfl⟩, rfl,
      fun _ => rfl, fun R L h => ⟨h.ready, h.sleep, h.nodup⟩⟩
  | some c =>
    have hc1 : (s.locked i p f).currentPCB = some c := hc
    have hspent : ∀ q, ((s.spent c).pcb q).sleepUntil = (s.pcb q).sleepUntil := by
      intro q
      rw [spent_pcb]
      split <;> rfl
    have hlists : ∀ R L, TwoLists s R L → TwoLists (s.spent c) R L :=
      fun R L h => h.modify c fun _ => rfl
    by_cases hq : ((s.spent c).pcb c).quantumLeft ≤ 0
    · -- `Schedule` only notes that a task change is due
      have hstep : step (m.closed s i p f (.quantum :: k)) =
          some (m.closed (s.spent c) i p f (.schedule :: k)) := by
        simp only [step, exec, Machine.closed, hc1]
        exact if_pos hq
      have hnote : step (m.closed (s.spent c) i p f (.schedule :: k)) =
          some (m.closed (s.spent c) i p true k) := if_pos hp
      refine ⟨_, (hquiet hstep (by simp [Machine.closed])).lands
        ((hquiet hnote (by simp [Machine.closed])).lands (.here rfl)), ⟨hi, hp, rfl⟩, rfl,
        hspent, ?_⟩
      intro R L h
      have h' := hlists R L h
      exact ⟨h'.ready, h'.sleep, h'.nodup⟩
    · have hstep : step (m.closed s i p f (.quantum :: k)) =
          some (m.closed (s.spent c) i p f k) := by
        simp only [step, exec, Machine.closed, hc1]
        exact if_neg hq
      refine ⟨_, (hquiet hstep (by simp [Machine.closed])).lands (.here rfl), ⟨hi, hp, rfl⟩, rfl,
        hspent, ?_⟩
      intro R L h
      have h' := hlists R L h
      exact ⟨h'.ready, h'.sleep, h'.nodup⟩

/-- What one call does to the ready list `R` and the sleeping list `L`. -/
structure Divides (m m' : Machine) (R L : List PcbPtr) : Prop where
  postponed : Postponed m'
  counter : m'.sched.counter = m.sched.counter + 1
  sleepUntil : ∀ q, (m'.sched.pcb q).sleepUntil = (m.sched.pcb q).sleepUntil
  lists : TwoLists m'.sched (R ++ L.filter (m.sched.dueAt m'.sched.counter))
    (L.filter fun q => !m.sched.dueAt m'.sched.counter q)

/-- **One call divides the sleeping list.** -/
theorem TwoLists.exists_lands (h : TwoLists m.sched R L) (hm : Postponed m)
    (hcode : m.code = .irqTimerHandler :: k) :
    ∃ m', Lands step (fun a => a.code = k) m m' ∧ Divides m m' R L := by
  set s := m.sched with hs
  set i := s.irqDisableCounter with hi
  set p := s.postponeTaskCounter with hp
  set f := s.taskChangePostponedFlag with hf
  set s1 : Sched := { s with
    counter := s.counter + 1, sleepingListHead := none, sleepingListTail := none } with hs1
  have hself : m.closed s i p f (.irqTimerHandler :: k) = m := by
    rw [← hcode, Machine.closed, ← hm.interrupts]
    rfl
  have hopen : ∀ s i p c, (Op.quantum :: k).length < c.length →
      ¬(m.closed s i p f c).code = k := by
    intro s i p c hlen hc
    rw [show c = k from hc, length_cons] at hlen
    omega
  have hstart : Quiet step (fun a => a.code = k) m
      (m.closed s1 i p f (.wake s.sleepingListHead :: .quantum :: k)) := by
    refine Quiet.single ?_ ?_
    · rw [hcode]
      simp
    · rw [← hself]
      rfl
  have hlists : Lists (s1.termed none none) R [] [] := by
    refine ⟨h.ready, queue_nil.mpr ⟨rfl, rfl⟩, queue_nil.mpr ⟨rfl, rfl⟩, ?_⟩
    simpa using (nodup_append.mp h.nodup).1
  have hdis : ∀ r ∈ L, r ∉ R ++ [] ++ [] := by
    intro r hL hR
    simp only [append_nil] at hR
    exact (nodup_append.mp h.nodup).2.2 r hR r hL rfl
  obtain ⟨hloop, hwoken, hrest⟩ := quiet_wakes (fun a => a.code = k) m (.quantum :: k)
    hm.irq hm.postpone hopen hlists h.sleep.chain hdis
  obtain ⟨m', hlands, hended⟩ := lands_quantum m (s1.wakes L) hm.irq hm.postpone
  have hcounter : m'.sched.counter = s.counter + 1 := hended.counter.trans hrest.counter
  refine ⟨m', hstart.lands (hloop.lands hlands), hended.postponed, hcounter,
    fun q => (hended.sleepUntil q).trans (hrest.sleepUntil q), ?_⟩
  have hdue : s.dueAt m'.sched.counter = s1.due := by
    rw [hcounter]
    rfl
  rw [hdue]
  refine hended.lists _ _ ⟨hwoken.ready, hwoken.sleep, ?_⟩
  simpa using hwoken.nodup

theorem TwoLists.handles (h : TwoLists m.sched R L) (hm : Handles m m') : Divides m m' R L := by
  obtain ⟨hpost, k, hcode, hlands⟩ := hm
  obtain ⟨m'', hlands', hdiv⟩ := h.exists_lands hpost hcode
  rwa [hlands.unique hlands']

end

/-! ### A run of calls -/

/-- The task is put on the ready list. -/
def Wakes (t : PcbPtr) (m m' : Machine) : Prop :=
  ¬m.sched.OnReadyList t ∧ m'.sched.OnReadyList t

/-- What may happen between two calls: `t` is not put to sleep again, and others sleep until the
same time. -/
def Meanwhile (t : PcbPtr) (s s' : Sched) : Prop :=
  ∀ R L, TwoLists s R L → ∃ R' X, TwoLists s' R' (L ++ X) ∧ t ∉ X ∧
    ∀ q ∈ L, (s'.pcb q).sleepUntil = (s.pcb q).sleepUntil

/-- `n` calls, the `j`-th from `a j` to `b j`. -/
structure TimerRun (t : PcbPtr) (n : ℕ) (a b : ℕ → Machine) : Prop where
  call : ∀ j < n, Handles (a j) (b j)
  between : ∀ j, j + 1 < n → Meanwhile t (b j).sched (a (j + 1)).sched

section

variable {s : Sched} {R L : List PcbPtr} {t : PcbPtr} {n : ℕ} {a b : ℕ → Machine}

theorem TwoLists.onReadyList_iff (h : TwoLists s R L) : s.OnReadyList t ↔ t ∈ R := by
  constructor
  · rintro ⟨R', hR', ht⟩
    rwa [hR'.chain.unique h.ready.chain] at ht
  · exact fun ht => ⟨R, h.ready, ht⟩

theorem TimerRun.sleeps {w : UInt32} (h : TimerRun t n a b) (h0 : TwoLists (a 0).sched R L)
    (ht : t ∈ L) (hw : ((a 0).sched.pcb t).sleepUntil = w) : ∀ j < n, ∃ R L,
      TwoLists (a j).sched R L ∧
        ((t ∈ L ∧ ((a j).sched.pcb t).sleepUntil = w ∧ ∀ i < j, ¬w ≤ (b i).sched.counter) ∨
          (t ∉ L ∧ ∃ i < j, w ≤ (b i).sched.counter)) := by
  intro j
  induction j with
  | zero => exact fun _ => ⟨R, L, h0, .inl ⟨ht, hw, by simp⟩⟩
  | succ j ih =>
    intro hj
    obtain ⟨R, L, hlists, hcases⟩ := ih (by omega)
    have hdiv := hlists.handles (h.call j (by omega))
    obtain ⟨R', X, hlists', htX, hsleep⟩ := h.between j hj _ _ hdiv.lists
    refine ⟨R', _, hlists', ?_⟩
    rcases hcases with ⟨htL, htw, hnot⟩ | ⟨htL, i, hi, hdue⟩
    · by_cases hdue : w ≤ (b j).sched.counter
      · refine .inr ⟨?_, j, by omega, hdue⟩
        simp [Sched.dueAt, htw, hdue, htX]
      · have hmem : t ∈ L.filter fun q => !(a j).sched.dueAt (b j).sched.counter q := by
          simp only [mem_filter, Sched.dueAt, htw]
          simp [htL, hdue]
        refine .inl ⟨mem_append_left X hmem, ?_, ?_⟩
        · rw [hsleep t hmem, hdiv.sleepUntil, htw]
        · intro i hi
          rcases Nat.lt_succ_iff_lt_or_eq.mp hi with hi | rfl
          · exact hnot i hi
          · exact hdue
    · exact .inr ⟨by simp [htL, htX], i, by omega, hdue⟩

/-- **A task is woken by the first call that finds its time come**, and by no other one. -/
theorem TimerRun.wakes_iff {w : UInt32} (h : TimerRun t n a b) (h0 : TwoLists (a 0).sched R L)
    (ht : t ∈ L) (hw : ((a 0).sched.pcb t).sleepUntil = w) {j : ℕ} (hj : j < n) :
    Wakes t (a j) (b j) ↔
      w ≤ (b j).sched.counter ∧ ∀ i < j, ¬w ≤ (b i).sched.counter := by
  obtain ⟨R, L, hlists, hcases⟩ := h.sleeps h0 ht hw j hj
  have hdiv := hlists.handles (h.call j hj)
  rw [Wakes, hlists.onReadyList_iff, hdiv.lists.onReadyList_iff]
  rcases hcases with ⟨htL, htw, hnot⟩ | ⟨htL, i, hi, hdue⟩
  · have htR : t ∉ R := fun htR => (nodup_append.mp hlists.nodup).2.2 t htR t htL rfl
    simp only [mem_append, mem_filter, Sched.dueAt, htw, decide_eq_true_eq, htR, htL,
      not_false_eq_true, true_and, false_or]
    exact ⟨fun hdue => ⟨hdue, hnot⟩, And.left⟩
  · constructor
    · rintro ⟨htR, hmem⟩
      simp [htR, htL] at hmem
    · exact fun hc => absurd hdue (hc.2 i hi)

end

/-- **One call of `IrqTimerHandler`** moves the tasks of `L` whose time has come behind `R`, in
order; no task is lost or on the lists twice. A task of `L` is put on the ready list by the first
call that leaves the counter at its time or later, only. -/
theorem irqTimerHandler_spec {m : Machine} {R L : List PcbPtr} {k : List Op} (hm : Postponed m)
    (hcode : m.code = .irqTimerHandler :: k) (h : TwoLists m.sched R L) :
    (∃ m' R' L', Lands step (fun a => a.code = k) m m' ∧
      m'.sched.counter = m.sched.counter + 1 ∧
      R' = R ++ L.filter (fun q => decide ((m.sched.pcb q).sleepUntil ≤ m'.sched.counter)) ∧
      L' = L.filter (fun q => !decide ((m.sched.pcb q).sleepUntil ≤ m'.sched.counter)) ∧
      TwoLists m'.sched R' L' ∧ (R' ++ L').Perm (R ++ L)) ∧
    ∀ (t : PcbPtr) (n : ℕ) (a b : ℕ → Machine), a 0 = m → TimerRun t n a b → t ∈ L →
      ∀ j < n, Wakes t (a j) (b j) ↔
        (m.sched.pcb t).sleepUntil ≤ (b j).sched.counter ∧
          ∀ i < j, ¬(m.sched.pcb t).sleepUntil ≤ (b i).sched.counter := by
  constructor
  · obtain ⟨m', hlands, hdiv⟩ := h.exists_lands hm hcode
    refine ⟨m', _, _, hlands, hdiv.counter, rfl, rfl, hdiv.lists, ?_⟩
    rw [append_assoc]
    exact (filter_append_perm _ L).append_left R
  · rintro t n a b rfl hrun ht j hj
    exact hrun.wakes_iff h ht rfl hj

/-- Task 3 is ready, the tasks 1 and 2 sleep until the times 1 and 9, and `IrqTimerHandler` is
called at the time 0. -/
def sleeperMachine : Machine :=
  let tasks := fun q => ⟨none, .paused, 1, if q = 2 then 9 else 1, 0⟩
  let sched := { bootMachine.sched with pcb := tasks }
  { bootMachine with
    sched := (((sched.addReady 3).addSleeping 1).addSleeping 2).locked 1 1 false
    code := [.irqTimerHandler]
    interrupts := false }

/-- Task 1 is woken, and task 2 sleeps on. -/
theorem irqTimerHandler_spec_sleeperMachine : Postponed sleeperMachine ∧
    TwoLists sleeperMachine.sched [3] [1, 2] ∧
    ∃ m', Lands step (fun a => a.code = []) sleeperMachine m' ∧ TwoLists m'.sched [3, 1] [2] := by
  have hm : Postponed sleeperMachine := ⟨by decide, by decide, rfl⟩
  have hlists : TwoLists sleeperMachine.sched [3] [1, 2] :=
    ⟨⟨⟨rfl, rfl⟩, rfl⟩, ⟨⟨rfl, rfl, rfl⟩, rfl⟩, by decide⟩
  obtain ⟨⟨m', R', L', hlands, hcounter, rfl, rfl, htwo, -⟩, -⟩ :=
    irqTimerHandler_spec hm rfl hlists
  rw [hcounter] at htwo
  exact ⟨hm, hlists, m', hlands, htwo⟩

end AthenX.Scheduler
