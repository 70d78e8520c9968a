import AthenX.Lib.Settle
import AthenX.Scheduler.Lists
import AthenX.Scheduler.Returns

/-!
# Critical sections

What the machine does while interrupts are disabled. Each lemma runs a piece of code to its end, so
that an invariant of the states with interrupts enabled never looks at a single statement. `m.closed
s i p f k` has interrupts disabled, the variables `s`, the counters `i` and `p`, the flag `f` and
the stack `k`; in `m.opened s i k` they are enabled again.
-/

namespace AthenX.Scheduler

open Linked Settling List

/-! ### States with known locks -/

/-- The variables with the lock variables set. -/
def Sched.locked (s : Sched) (i p : ℤ) (f : Bool) : Sched :=
  { s with irqDisableCounter := i, postponeTaskCounter := p, taskChangePostponedFlag := f }

/-- The machine with interrupts disabled. -/
def Machine.closed (m : Machine) (s : Sched) (i p : ℤ) (f : Bool) (k : List Op) : Machine :=
  { m with sched := s.locked i p f, code := k, interrupts := false }

/-- The machine with interrupts enabled. -/
def Machine.opened (m : Machine) (s : Sched) (i : ℤ) (k : List Op) : Machine :=
  { m with sched := s.locked i 0 false, code := k, interrupts := true }

/-- Interrupts are enabled. -/
def IsOpen (m : Machine) : Prop := m.interrupts = true

theorem not_isOpen_closed (m : Machine) (s : Sched) (i p : ℤ) (f : Bool) (k : List Op) :
    ¬IsOpen (m.closed s i p f k) := by
  intro h
  cases h

/-- The machine goes on quietly. -/
abbrev QuietTo : Machine → Machine → Prop := Quiet step IsOpen

variable {m : Machine} {s : Sched} {i p : ℤ} {f : Bool} {k : List Op} {c n : PcbPtr} {w : UInt32}
  {L R T V : List PcbPtr}

theorem quiet_of_step {m' : Machine}
    (h : step (m.closed s i p f k) = some m') : QuietTo (m.closed s i p f k) m' :=
  Quiet.single (not_isOpen_closed m s i p f k) h

theorem quiet_step {m' m₁ : Machine} (h : step (m.closed s i p f k) = some m')
    (hq : QuietTo m' m₁) : QuietTo (m.closed s i p f k) m₁ :=
  (quiet_of_step h).trans hq

theorem Sched.locked_self (hp : s.postponeTaskCounter = 0)
    (hf : s.taskChangePostponedFlag = false) : s.locked s.irqDisableCounter 0 false = s := by
  rw [← hp, ← hf]
  rfl

theorem Machine.opened_self (ho : IsOpen m) (hp : m.sched.postponeTaskCounter = 0)
    (hf : m.sched.taskChangePostponedFlag = false) :
    m.opened m.sched m.sched.irqDisableCounter m.code = m := by
  rw [Machine.opened, Sched.locked_self hp hf, ← show m.interrupts = true from ho]

section

variable (s : Sched) (i p : ℤ) (f : Bool)

theorem linkLast_locked (head tail : Option PcbPtr) (task : PcbPtr) :
    (s.locked i p f).linkLast head tail task = (s.linkLast head tail task).locked i p f := by
  unfold Sched.linkLast
  split
  · rfl
  · cases tail <;> rfl

theorem addReady_locked (task : PcbPtr) :
    (s.locked i p f).addReady task = (s.addReady task).locked i p f := by
  have h := linkLast_locked (s.modify task fun b => { b with state := .ready, next := none })
    i p f s.readyListHead s.readyListTail task
  exact congrArg (fun t : Sched => { t with
    readyListHead := s.readyListHead.or (some task), readyListTail := some task }) h

theorem addSleeping_locked (task : PcbPtr) :
    (s.locked i p f).addSleeping task = (s.addSleeping task).locked i p f := by
  have h := linkLast_locked (s.modify task fun b => { b with state := .sleeping })
    i p f s.sleepingListHead s.sleepingListTail task
  exact congrArg (fun t : Sched => { t with
    sleepingListHead := s.sleepingListHead.or (some task), sleepingListTail := some task }) h

theorem addTerminated_locked (task : PcbPtr) :
    (s.locked i p f).addTerminated task = (s.addTerminated task).locked i p f := by
  have h := linkLast_locked (s.modify task fun b => { b with state := .sleeping })
    i p f s.terminatedListHead s.terminatedListTail task
  exact congrArg (fun t : Sched => { t with
    terminatedListHead := s.terminatedListHead.or (some task)
    terminatedListTail := some task }) h

theorem updateTimeUsed_locked :
    (s.locked i p f).updateTimeUsed = s.updateTimeUsed.locked i p f := by
  unfold Sched.updateTimeUsed
  dsimp [Sched.locked]
  split <;> rfl

end

/-! ### Calls -/

section

variable (m : Machine) (s : Sched) (k : List Op)

/-- `LockScheduler` closes the machine. -/
theorem step_lock (hm : m.sched = s.locked 0 0 false) (hk : m.code = .lockScheduler :: k) :
    step m = some (m.closed s 1 0 false k) := by
  rw [step, hk]
  simp only [exec, hm]
  rfl

/-- `UnlockScheduler` opens it. -/
theorem quiet_unlock : QuietTo (m.closed s 1 0 false (.unlockScheduler :: k)) (m.opened s 0 k) :=
  quiet_of_step rfl

/-- `currentPCB->state = r`. -/
theorem step_setState (hc : s.currentPCB = some c) (r : State) (i p : ℤ) (f : Bool) :
    step (m.closed s i p f (.setState r :: k)) =
      some (m.closed (s.modify c fun b => { b with state := r }) i p f k) := by
  show (s.currentPCB.map _) = _
  rw [hc]
  rfl

theorem step_addReady (q : PcbPtr) (i p : ℤ) (f : Bool) :
    step (m.closed s i p f (.addReady q :: k)) = some (m.closed (s.addReady q) i p f k) := by
  rw [Machine.closed, Machine.closed, ← addReady_locked]
  rfl

theorem step_addTerminated (hc : s.currentPCB = some c) (i p : ℤ) (f : Bool) :
    step (m.closed s i p f (.addTerminated :: k)) =
      some (m.closed (s.addTerminated c) i p f k) := by
  have hc' : (s.locked i p f).currentPCB = some c := hc
  simp only [step, exec, Machine.closed, hc', addTerminated_locked]
  rfl

/-- `BlockProcess`, up to the call of `Schedule` that it postponed. -/
theorem quiet_block (hc : s.currentPCB = some c) (r : State) :
    QuietTo (m.closed s 1 0 false (.postpone :: .setState r :: .schedule :: unlock k))
      (m.closed (s.modify c fun b => { b with state := r }) 1 0 false
        (.schedule :: .unlockScheduler :: k)) := by
  refine quiet_step rfl (quiet_step (step_setState m s _ hc r 1 1 false) ?_)
  exact quiet_step rfl (quiet_of_step rfl)

/-- `AddReady` under the lock. -/
theorem quiet_add (p : PcbPtr) :
    QuietTo (m.closed s 1 0 false (.postpone :: .addReady p :: unlock k))
      (m.opened (s.addReady p) 0 k) := by
  refine quiet_step rfl (quiet_step (step_addReady m s _ p 1 1 false) ?_)
  exact quiet_step rfl (quiet_unlock m _ k)

end

/-! ### `SleepUntil` -/

section

variable (m : Machine) (s : Sched) (k : List Op)

/-- `SleepUntil` when the time has passed already. -/
theorem quiet_sleep_passed (hw : w < s.counter) :
    QuietTo (m.closed s 1 0 false (.postpone :: .sleepTest w :: k)) (m.opened s 0 k) := by
  have htest : step (m.closed s 1 1 false (.sleepTest w :: k)) =
      some (m.closed s 1 1 false (unlock k)) := if_pos hw
  refine quiet_step rfl (quiet_step htest ?_)
  exact quiet_step rfl (quiet_unlock m _ k)

theorem quiet_sleep (hc : s.currentPCB = some c) (hw : ¬w < s.counter) :
    QuietTo (m.closed s 1 0 false (.postpone :: .sleepTest w :: k))
      (m.opened ((s.modify c fun b => { b with sleepUntil := w }).addSleeping c) 0
        (blockProcess .sleeping ++ k)) := by
  have htest : step (m.closed s 1 1 false (.sleepTest w :: k)) =
      some (m.closed ((s.modify c fun b => { b with sleepUntil := w }).addSleeping c) 1 1 false
        (unlock (blockProcess .sleeping ++ k))) := by
    refine (if_neg hw).trans ?_
    show s.currentPCB.map _ = _
    rw [hc, Machine.closed, Machine.closed, ← addSleeping_locked]
    rfl
  refine quiet_step rfl (quiet_step htest ?_)
  exact quiet_step rfl (quiet_unlock m _ _)

end

/-! ### `Schedule` -/

/-- The task that is left goes to the end of the ready list if it still runs. -/
def Sched.requeue (s : Sched) (c : PcbPtr) : Sched :=
  if (s.pcb c).state = .running then s.addReady c else s

theorem requeue_locked (s : Sched) (i p : ℤ) (f : Bool) (c : PcbPtr) :
    (s.locked i p f).requeue c = (s.requeue c).locked i p f := by
  by_cases hr : (s.pcb c).state = .running
  · rw [Sched.requeue, Sched.requeue, if_pos hr, ← addReady_locked]
    exact if_pos hr
  · rw [Sched.requeue, Sched.requeue, if_neg hr]
    exact if_neg hr

/-- The head `n` of the ready list taken, with a new time slice. -/
def Sched.take (s : Sched) (n : PcbPtr) : Sched :=
  (s.popReady n).modify n fun b => { b with quantumLeft := timeslice }

/-- The variables when `c` is left for `n`. -/
abbrev Sched.leave (s : Sched) (c n : PcbPtr) : Sched := ((s.take n).requeue c).updateTimeUsed

/-- The variables after `Schedule` switched from `c` to `n`, the head of the ready list. -/
def Sched.switched (s : Sched) (c n : PcbPtr) : Sched :=
  Sched.modify { s.leave c n with currentPCB := some n } n
    fun b => { b with state := .running }

theorem take_pcb (s : Sched) (n q : PcbPtr) :
    (s.take n).pcb q =
      if q = n then { s.pcb q with next := none, quantumLeft := timeslice } else s.pcb q := by
  rw [Sched.take, Sched.modify_pcb]
  split
  · next hq => subst hq; rw [Sched.popReady_pcb, if_pos rfl]
  · next hq => rw [Sched.popReady_pcb, if_neg hq]

theorem take_state (s : Sched) (n q : PcbPtr) : ((s.take n).pcb q).state = (s.pcb q).state := by
  rw [take_pcb]
  split <;> rfl

theorem requeue_pcb (s : Sched) (c q : PcbPtr) :
    (s.requeue c).pcb q =
      { s.pcb q with
        next := (s.requeue c).next q
        state := if q = c ∧ (s.pcb c).state = .running then .ready else (s.pcb q).state } := by
  by_cases hr : (s.pcb c).state = .running
  · rw [Sched.requeue, if_pos hr, Sched.addReady_pcb]
    simp [hr]
  · rw [Sched.requeue]
    simp only [hr, and_false]
    rfl

theorem requeue_eq (s : Sched) (c : PcbPtr) :
    (s.requeue c).currentPCB = s.currentPCB ∧ (s.requeue c).counter = s.counter ∧
      (s.requeue c).lastCounter = s.lastCounter ∧ (s.requeue c).butler = s.butler := by
  unfold Sched.requeue
  split
  · rw [Sched.addReady_eq]; exact ⟨rfl, rfl, rfl, rfl⟩
  · exact ⟨rfl, rfl, rfl, rfl⟩

theorem switched_eq (s : Sched) (c n : PcbPtr) :
    (s.switched c n).currentPCB = some n ∧ (s.switched c n).counter = s.counter ∧
      (s.switched c n).lastCounter = s.counter ∧ (s.switched c n).butler = s.butler := by
  obtain ⟨-, hcounter, -, hbutler⟩ := requeue_eq (s.take n) c
  unfold Sched.switched Sched.leave
  rw [Sched.updateTimeUsed_eq]
  exact ⟨rfl, hcounter, hcounter, hbutler⟩

section

variable (n q : PcbPtr)

theorem switched_pcb :
    (s.switched c n).pcb q = if q = n then { (s.leave c n).pcb q with state := .running }
      else (s.leave c n).pcb q := by
  rw [Sched.switched, Sched.modify_pcb]
  split
  · next hq => rw [hq]
  · rfl

theorem switched_state :
    ((s.switched c n).pcb q).state =
      if q = n then .running
      else if q = c ∧ (s.pcb c).state = .running then .ready else (s.pcb q).state := by
  rw [switched_pcb]
  split
  · rfl
  · have hupd : ((s.leave c n).pcb q).state =
        (((s.take n).requeue c).pcb q).state := by
      rw [Sched.updateTimeUsed_pcb]
      split <;> rfl
    rw [hupd, requeue_pcb]
    simp [take_state]

theorem switched_used (hc : s.currentPCB = some c) :
    ((s.switched c n).pcb q).used =
      if q = c then (s.pcb q).used + (s.counter - s.lastCounter) else (s.pcb q).used := by
  obtain ⟨hcur, hcounter, hlast, -⟩ := requeue_eq (s.take n) c
  have htake : (((s.take n).requeue c).pcb q).used = (s.pcb q).used := by
    rw [requeue_pcb, take_pcb]
    split <;> rfl
  have hupd : ((s.leave c n).pcb q).used =
      if q = c then (s.pcb q).used + (s.counter - s.lastCounter) else (s.pcb q).used := by
    have hcur' : (s.take n).currentPCB = some c := hc
    rw [Sched.updateTimeUsed_pcb, hcur, hcounter, hlast, hcur']
    by_cases hq : q = c
    · rw [if_pos hq, if_pos (by rw [hq]), ← htake]
      rfl
    · rw [if_neg hq, if_neg fun h => hq (Option.some.inj h).symm, htake]
  rw [switched_pcb]
  split
  · exact hupd
  · exact hupd

theorem switched_sleepUntil : ((s.switched c n).pcb q).sleepUntil = (s.pcb q).sleepUntil := by
  have hupd : ((s.leave c n).pcb q).sleepUntil = (s.pcb q).sleepUntil := by
    rw [Sched.updateTimeUsed_pcb, requeue_pcb, take_pcb]
    split <;> split <;> rfl
  rw [switched_pcb]
  split
  · exact hupd
  · exact hupd

theorem switched_quantumLeft :
    ((s.switched c n).pcb q).quantumLeft =
      if q = n then timeslice else (s.pcb q).quantumLeft := by
  have htake : ((s.leave c n).pcb q).quantumLeft =
      if q = n then timeslice else (s.pcb q).quantumLeft := by
    have hupd : ((s.leave c n).pcb q).quantumLeft = (((s.take n).requeue c).pcb q).quantumLeft := by
      rw [Sched.updateTimeUsed_pcb]
      split <;> rfl
    rw [hupd, requeue_pcb, take_pcb]
    split <;> rfl
  rw [switched_pcb]
  split
  · next hq => rw [← htake.trans (if_pos hq)]
  · next hq => exact htake.trans (if_neg hq)

end

theorem Lists.take (h : Lists s (n :: R) L T) :
    Lists (s.take n) R L T ∧ (s.take n).next n = none := by
  obtain ⟨hl, hn⟩ := h.popReady
  refine ⟨hl.modify n fun _ => rfl, ?_⟩
  rw [Sched.take, Sched.next, Sched.modify_self]
  exact hn

/-- **The lists after a switch.** The task that is left comes last if it still runs. -/
theorem Lists.switched (h : Lists s (n :: R) L T)
    (hc : (s.pcb c).state = .running → c ∉ n :: R ++ L ++ T) :
    Lists (s.switched c n) (R ++ if (s.pcb c).state = .running then [c] else []) L T ∧
      (s.switched c n).next n = none := by
  obtain ⟨hl, hn⟩ := h.take
  have hst : ((s.take n).pcb c).state = (s.pcb c).state := take_state s n c
  have hnR : n ∉ R := fun hmem => (nodup_cons.mp h.nodup).1 (by simp [hmem])
  have hreq : Lists ((s.take n).requeue c)
      (R ++ if (s.pcb c).state = .running then [c] else []) L T ∧
      ((s.take n).requeue c).next n = none := by
    unfold Sched.requeue
    rw [hst]
    split
    · next hrun =>
      have hmem : c ∉ R ++ L ++ T := fun hm => hc hrun (mem_cons_of_mem _ hm)
      refine ⟨hl.addReady hmem, ?_⟩
      rw [Sched.addReady_next, if_neg fun ht => hnR (hl.ready.rho.mem_tail ht.2), hn, ite_self]
    · rw [append_nil]
      exact ⟨hl, hn⟩
  have hupd : Lists (s.leave c n)
      (R ++ if (s.pcb c).state = .running then [c] else []) L T := hreq.1.updateTimeUsed
  have hcur : Lists { s.leave c n with currentPCB := some n }
      (R ++ if (s.pcb c).state = .running then [c] else []) L T :=
    ⟨hupd.ready, hupd.sleep, hupd.term, hupd.nodup⟩
  refine ⟨hcur.modify n fun _ => rfl, ?_⟩
  rw [Sched.next, switched_pcb, if_pos rfl]
  rw [Sched.updateTimeUsed_pcb]
  split
  · exact hreq.2
  · exact hreq.2

/-- The machine after the switch: the stack `k` is saved, and that of `n` runs. -/
def Machine.switched (m : Machine) (s : Sched) (c n : PcbPtr) (k : List Op) : Machine :=
  { m with
    sched := (s.switched c n).locked 1 0 false
    saved := Function.update m.saved c k
    code := Function.update m.saved c k n
    interrupts := false
    owner := n }

section

variable (m : Machine) (k : List Op)

/-- `SwitchToTask` to the task that was taken from the ready list. -/
theorem quiet_switchToTask (n : PcbPtr) (hc : s.currentPCB = some c) :
    QuietTo (m.closed (s.take n) 1 0 false (.switchToTask n :: k)) (m.switched s c n k) := by
  refine quiet_of_step ?_
  set m' := m.closed (s.take n) 1 0 false (.switchToTask n :: k)
  have hc' : m'.sched.currentPCB = some c := hc
  show m'.switch n k = _
  rw [Machine.switch, if_neg fun h => h rfl, hc']
  show some { m' with
    sched := Sched.modify { (m'.sched.requeue c).updateTimeUsed with currentPCB := some n } n
      fun b => { b with state := .running }
    saved := _, code := _, owner := n } = _
  simp only [m', Machine.closed, requeue_locked, updateTimeUsed_locked]
  rfl

/-- **`Schedule` with a task ready** switches to it. -/
theorem quiet_switch (hc : s.currentPCB = some c) (hn : s.readyListHead = some n) :
    QuietTo (m.closed s 1 0 false (.schedule :: k)) (m.switched s c n (.returned :: k)) := by
  have hpop : step (m.closed s 1 0 false (.schedule :: k)) =
      some (m.closed (s.take n) 1 0 false (.switchToTask n :: .returned :: k)) := by
    simp only [step, exec, Machine.schedule, Machine.closed,
      Sched.nextReady_of_some (s := s.locked 1 0 false) hn]
    rfl
  exact quiet_step hpop (quiet_switchToTask m (.returned :: k) n hc)

/-- **`Schedule` with no task ready** returns to a task that runs. -/
theorem quiet_direct (hc : s.currentPCB = some c) (hn : s.readyListHead = none)
    (hr : (s.pcb c).state = .running) :
    QuietTo (m.closed s 1 0 false (.schedule :: k)) (m.closed s 1 0 false k) := by
  have hstep : step (m.closed s 1 0 false (.schedule :: k)) =
      some (m.closed s 1 0 false (.returned :: k)) := by
    have hnr := Sched.nextReady_of_none (s := s.locked 1 0 false) hn
    have hc1 : (s.locked 1 0 false).currentPCB = some c := hc
    have hr1 : ((s.locked 1 0 false).pcb c).state = .running := hr
    simp only [step, exec, Machine.schedule, Machine.closed, hnr, hc1, hr1]
    rfl
  exact quiet_step hstep (quiet_of_step rfl)

/-- **`Schedule` with no task ready** goes idle for a task that does not run. -/
theorem quiet_idle (hc : s.currentPCB = some c) (hn : s.readyListHead = none)
    (hr : (s.pcb c).state ≠ .running) :
    QuietTo (m.closed s 1 0 false (.schedule :: k))
      (m.opened { s with currentPCB := none } 1 (.hlt :: .idleCheck c :: .returned :: k)) := by
  refine quiet_of_step ?_
  have hnr := Sched.nextReady_of_none (s := s.locked 1 0 false) hn
  have hc1 : (s.locked 1 0 false).currentPCB = some c := hc
  have hr1 : ((s.locked 1 0 false).pcb c).state ≠ .running := hr
  simp only [step, exec, Machine.schedule, Machine.closed, hnr, hc1]
  rw [if_neg hr1]
  rfl

end

/-! ### The idle loop -/

section

variable (m : Machine) (s : Sched) (k : List Op) (task : PcbPtr)

theorem step_idleCheck_none (hn : s.readyListHead = none) :
    step (m.opened s 1 (.idleCheck task :: k)) =
      some (m.opened s 1 (.hlt :: .idleCheck task :: k)) := by
  have hnr := Sched.nextReady_of_none (s := s.locked 1 0 false) hn
  simp [step, exec, Machine.idleCheck, Machine.opened, hnr]

theorem step_idleCheck_switch (hn : s.readyListHead = some n) (hne : n ≠ task) :
    step (m.opened s 1 (.idleCheck task :: k)) =
      some (m.closed (Sched.take { s with currentPCB := some task } n) 1 0 false
        (.switchToTask n :: k)) := by
  have hnr := Sched.nextReady_of_some (s := s.locked 1 0 false) hn
  simp only [step, exec, Machine.idleCheck, Machine.opened, hnr, if_pos hne]
  rfl

theorem step_idleCheck_self (hn : s.readyListHead = some task) :
    step (m.opened s 1 (.idleCheck task :: k)) =
      some (m.closed (Sched.take { s with currentPCB := some task } task) 1 0 false k) := by
  have hnr := Sched.nextReady_of_some (s := s.locked 1 0 false) hn
  simp only [step, exec, Machine.idleCheck, Machine.opened, hnr]
  rw [if_neg fun h => h rfl]
  rfl

end

/-! ### The timer -/

/-- An interrupt, with the stack that it finds behind a `HLT`. -/
theorem interrupt_eq (hi : m.sched.irqDisableCounter = i)
    (hp : m.sched.postponeTaskCounter = 0) (hf : m.sched.taskChangePostponedFlag = false)
    (hk : m.code = .hlt :: k ∨ m.code = k ∧ k.head? ≠ some .hlt) :
    m.interrupt = m.closed m.sched i 0 false (timerHandler ++ k) := by
  have hself := Sched.locked_self hp hf
  rw [hi] at hself
  rw [Machine.closed, hself, Machine.interrupt]
  rcases hk with hk | ⟨hk, hne⟩
  · rw [hk]
  · split
    · next hcode =>
      rw [← hk, hcode] at hne
      exact absurd rfl hne
    · rw [hk]

section

variable (m : Machine) (s : Sched) (k : List Op)

/-- When the loop of `IrqTimerHandler` starts: the counter was raised twice, and the list detached.
-/
def Sched.ticked (s : Sched) : Sched :=
  { s with counter := s.counter + 1 + 1, sleepingListHead := none, sleepingListTail := none }

theorem quiet_tick (b : ℤ) :
    QuietTo (m.closed s b 0 false (timerHandler ++ k))
      (m.closed s.ticked (b + 1) 1 false (.wake s.sleepingListHead :: .quantum :: .unpostpone ::
        .unlockScheduler :: .iret :: k)) := by
  have hlock : step (m.closed { s with counter := s.counter + 1 } b 0 false
      (.lockScheduler :: .postpone :: .irqTimerHandler :: .unpostpone :: .unlockScheduler ::
        .iret :: k)) =
      some (m.closed { s with counter := s.counter + 1 } (b + 1) 0 false
        (.postpone :: .irqTimerHandler :: unlock (.iret :: k))) := rfl
  refine quiet_step rfl (quiet_step hlock ?_)
  exact quiet_step rfl (quiet_of_step rfl)

/-- The quantum of a task goes down. -/
def Sched.spent (s : Sched) (c : PcbPtr) : Sched :=
  s.modify c fun b => { b with quantumLeft := b.quantumLeft - 1 }

theorem spent_pcb (c q : PcbPtr) :
    (s.spent c).pcb q =
      if q = c then { s.pcb q with quantumLeft := (s.pcb q).quantumLeft - 1 } else s.pcb q := by
  rw [Sched.spent, Sched.modify_pcb]
  split
  · next hq => rw [hq]
  · rfl

theorem step_quantum (hc : s.currentPCB = some c) : step (m.closed s 1 1 false (.quantum :: k)) =
      if ((s.spent c).pcb c).quantumLeft ≤ 0
      then some (m.closed (s.spent c) 1 1 false (.schedule :: k))
      else some (m.closed (s.spent c) 1 1 false k) := by
  have hc1 : (s.locked 1 1 false).currentPCB = some c := hc
  simp only [step, exec, Machine.closed, hc1]
  rfl

/-- The time slice is over: `Schedule` is called at the end of the handler. -/
theorem quiet_quantum (hc : s.currentPCB = some c) (hq : ((s.spent c).pcb c).quantumLeft ≤ 0) :
    QuietTo (m.closed s 1 1 false (.quantum :: unlock k))
      (m.closed (s.spent c) 1 0 false (.schedule :: .unlockScheduler :: k)) := by
  have hstep := step_quantum m s (unlock k) hc
  rw [if_pos hq] at hstep
  exact quiet_step hstep (quiet_step rfl (quiet_of_step rfl))

theorem quiet_quantum_left (hc : s.currentPCB = some c)
    (hq : ¬((s.spent c).pcb c).quantumLeft ≤ 0) :
    QuietTo (m.closed s 1 1 false (.quantum :: unlock k)) (m.opened (s.spent c) 0 k) := by
  have hstep := step_quantum m s (unlock k) hc
  rw [if_neg hq] at hstep
  exact quiet_step hstep (quiet_step rfl (quiet_of_step rfl))

/-- In the idle loop the handler leaves the lock of `Schedule` in place. -/
theorem quiet_quantum_idle (hc : s.currentPCB = none) :
    QuietTo (m.closed s 2 1 false (.quantum :: unlock (.iret :: k))) (m.opened s 1 k) := by
  have hstep : step (m.closed s 2 1 false (.quantum :: unlock (.iret :: k))) =
      some (m.closed s 2 1 false (unlock (.iret :: k))) := by
    have hc1 : (s.locked 2 1 false).currentPCB = none := hc
    simp only [step, exec, Machine.closed, hc1]
    rfl
  exact quiet_step hstep (quiet_step rfl
    (quiet_step rfl (quiet_of_step rfl)))

end

/-! ### The loop of `IrqTimerHandler` -/

/-- Has the time come for which the task sleeps? -/
def Sched.due (s : Sched) (q : PcbPtr) : Bool := decide ((s.pcb q).sleepUntil ≤ s.counter)

/-- One round of the loop. -/
def Sched.wakeOne (s : Sched) (q : PcbPtr) : Sched :=
  let s := s.modify q fun b => { b with next := none }
  if s.due q then s.addReady q else s.addSleeping q

/-- The list of terminated tasks replaced. -/
def Sched.termed (s : Sched) (head tail : Option PcbPtr) : Sched :=
  { s with terminatedListHead := head, terminatedListTail := tail }

theorem linkLast_termed (s : Sched) (hd tl head tail : Option PcbPtr) (task : PcbPtr) :
    (s.termed hd tl).linkLast head tail task = (s.linkLast head tail task).termed hd tl := by
  unfold Sched.linkLast
  split
  · rfl
  · cases tail <;> rfl

theorem wakeOne_termed (s : Sched) (hd tl : Option PcbPtr) (q : PcbPtr) :
    (s.termed hd tl).wakeOne q = (s.wakeOne q).termed hd tl := by
  set s1 := s.modify q fun b => { b with next := none } with hs1
  have hready := linkLast_termed (s1.modify q fun b => { b with state := .ready, next := none })
    hd tl s.readyListHead s.readyListTail q
  have hsleep := linkLast_termed (s1.modify q fun b => { b with state := .sleeping })
    hd tl s.sleepingListHead s.sleepingListTail q
  show (if s1.due q then (s1.termed hd tl).addReady q else (s1.termed hd tl).addSleeping q) =
    Sched.termed (if s1.due q then s1.addReady q else s1.addSleeping q) hd tl
  split
  · exact congrArg (fun t : Sched => { t with
      readyListHead := s.readyListHead.or (some q), readyListTail := some q }) hready
  · exact congrArg (fun t : Sched => { t with
      sleepingListHead := s.sleepingListHead.or (some q), sleepingListTail := some q }) hsleep

/-- The loop, on the tasks of a list. -/
def Sched.wakes (s : Sched) (W : List PcbPtr) : Sched := W.foldl Sched.wakeOne s

@[simp] theorem wakes_nil (s : Sched) : s.wakes [] = s := rfl

@[simp] theorem wakes_cons (s : Sched) (q : PcbPtr) (W : List PcbPtr) :
    s.wakes (q :: W) = (s.wakeOne q).wakes W := rfl

theorem wakes_termed (hd tl : Option PcbPtr) (W : List PcbPtr) : ∀ s : Sched,
    (s.termed hd tl).wakes W = (s.wakes W).termed hd tl := by
  induction W with
  | nil => exact fun _ => rfl
  | cons q W ih =>
    intro s
    rw [wakes_cons, wakeOne_termed, ih, wakes_cons]

theorem quiet_wakeOne {isOpen : Machine → Prop} (m : Machine) (s : Sched) (q : PcbPtr)
    (k : List Op) (hi : i ≠ 0) (hp : p ≠ 0)
    (hopen : ∀ s i p c, k.length < c.length → ¬isOpen (m.closed s i p f c)) :
    Quiet step isOpen (m.closed s i p f (.wake (some q) :: k))
      (m.closed (s.wakeOne q) i p f (.wake (s.next q) :: k)) := by
  have hquiet : ∀ {s i p c m'}, step (m.closed s i p f c) = some m' → k.length < c.length →
      Quiet step isOpen (m.closed s i p f c) m' :=
    fun hstep hlen => Quiet.single (hopen _ _ _ _ hlen) hstep
  set s1 := s.modify q fun b => { b with next := none } with hs1
  by_cases hd : (s1.pcb q).sleepUntil ≤ s1.counter
  · have hone : s.wakeOne q = s1.addReady q := if_pos (decide_eq_true hd)
    have htest : step (m.closed s i p f (.wake (some q) :: k)) =
        some (m.closed s1 i p f (unblockProcess q ++ .wake (s.next q) :: k)) := if_pos hd
    have hadd := step_addReady m s1 (unlock (.wake (s.next q) :: k)) q (i + 1) (p + 1) f
    -- the call is nested: task changes stay postponed, and interrupts disabled
    have hpost : step (m.closed (s1.addReady q) (i + 1) (p + 1) f
        (unlock (.wake (s.next q) :: k))) =
        some (m.closed (s1.addReady q) (i + 1) p f
          (.unlockScheduler :: .wake (s.next q) :: k)) := by
      have hp' : p + 1 - 1 = p := Int.add_sub_cancel p 1
      simp only [step, exec, Machine.closed, Sched.locked, hp', hp, false_and, if_false,
        Machine.update]
    have hunlock : step (m.closed (s1.addReady q) (i + 1) p f
        (.unlockScheduler :: .wake (s.next q) :: k)) =
        some (m.closed (s1.addReady q) i p f (.wake (s.next q) :: k)) := by
      have hi' : i + 1 - 1 = i := Int.add_sub_cancel i 1
      simp [step, exec, Machine.closed, Sched.locked, hi', hi]
    have hlock : step (m.closed s1 i p f (unblockProcess q ++ .wake (s.next q) :: k)) =
        some (m.closed s1 (i + 1) p f (.postpone :: .addReady q :: .unpostpone ::
          .unlockScheduler :: .wake (s.next q) :: k)) := rfl
    have hpostpone : step (m.closed s1 (i + 1) p f (.postpone :: .addReady q :: .unpostpone ::
          .unlockScheduler :: .wake (s.next q) :: k)) =
        some (m.closed s1 (i + 1) (p + 1) f (.addReady q :: .unpostpone ::
          .unlockScheduler :: .wake (s.next q) :: k)) := rfl
    rw [hone]
    have hlen : ∀ ops : List Op, k.length < (ops ++ .wake (s.next q) :: k).length := by
      intro ops
      rw [length_append, length_cons]
      omega
    refine (hquiet htest (hlen [])).trans ((hquiet hlock (hlen (unblockProcess q))).trans
      ((hquiet hpostpone (hlen [_, _, _, _])).trans ((hquiet hadd (hlen [_, _, _])).trans ?_)))
    exact (hquiet hpost (hlen [_, _])).trans (hquiet hunlock (hlen [_]))
  · have hone : s.wakeOne q = s1.addSleeping q :=
      if_neg fun h => hd (of_decide_eq_true h)
    have htest : step (m.closed s i p f (.wake (some q) :: k)) =
        some (m.closed (s1.addSleeping q) i p f (.wake (s.next q) :: k)) := by
      refine (if_neg hd).trans ?_
      rw [Machine.closed, Machine.closed, ← addSleeping_locked]
      rfl
    rw [hone]
    exact hquiet htest (by simp)

section

variable {W : List PcbPtr} {q : PcbPtr}

theorem wakeOne_lists (h : Lists s R L T) (hW : Chain s.next (some q) (q :: W))
    (hdis : ∀ r ∈ q :: W, r ∉ R ++ L ++ T) :
    Lists (s.wakeOne q) (R ++ [q].filter s.due) (L ++ [q].filter fun r => !s.due r) T ∧
      Chain (s.wakeOne q).next (s.next q) W := by
  set s1 := s.modify q fun b => { b with next := none } with hs1
  have hnext : ∀ r, s1.next r = if r = q then none else s.next r := by
    intro r
    rw [Sched.next, Sched.modify_pcb]
    split <;> rfl
  have hq : q ∉ R ++ L ++ T := hdis q mem_cons_self
  have hqW : q ∉ W := (nodup_cons.mp hW.nodup).1
  have hlists : Lists s1 R L T := by
    refine h.congr ?_ ⟨rfl, rfl, rfl, rfl, rfl, rfl⟩
    intro r hr
    rw [hnext, if_neg]
    rintro rfl
    exact hq hr
  have hchain : Chain s1.next (s.next q) W := by
    refine Chain.congr hW.2 ?_
    intro r hr
    rw [hnext, if_neg]
    rintro rfl
    exact hqW hr
  have hdue : s1.due q = s.due q := by
    simp only [Sched.due, hs1, Sched.modify_self]
    rfl
  have hW' : ∀ r ∈ W, r ∉ R ++ L ++ T := fun r hr => hdis r (mem_cons_of_mem _ hr)
  show Lists (if s1.due q then _ else _) _ _ _ ∧ Chain (Sched.next (if s1.due q then _ else _)) _ _
  cases hd : s.due q with
  | true =>
    rw [hdue, hd, filter_cons_of_pos hd, filter_cons_of_neg (by simp [hd])]
    simp only [filter_nil, append_nil]
    refine ⟨hlists.addReady hq, hlists.ready.put_chain (Sched.addReady_next s1 q) hchain hqW ?_⟩
    exact fun r hr hc => hW' r hr (by simp [hc])
  | false =>
    have hn : s1.next q = none := by rw [hnext, if_pos rfl]
    rw [hdue, hd, if_neg (by simp), filter_cons_of_neg (by simp [hd]),
      filter_cons_of_pos (by simp [hd])]
    simp only [filter_nil, append_nil]
    refine ⟨hlists.addSleeping hq hn, hlists.sleep.put_chain ?_ hchain hqW
      fun r hr hc => hW' r hr (by simp [hc])⟩
    · intro r
      rw [Sched.addSleeping_next]
      refine if_congr Iff.rfl rfl ?_
      split
      · next hr => rw [hr, hn]
      · rfl

/-- What the loop does besides: `W` is behind it, and the links outside of the lists stay. -/
structure Woken (s s' : Sched) (V W : List PcbPtr) : Prop where
  current : s'.currentPCB = s.currentPCB
  counter : s'.counter = s.counter
  sleepUntil : ∀ q, (s'.pcb q).sleepUntil = (s.pcb q).sleepUntil
  state : ∀ q, (s'.pcb q).state =
    if q ∈ W then (if s.due q then .ready else .sleeping) else (s.pcb q).state
  next : ∀ q, q ∉ V → q ∉ W → s'.next q = s.next q

theorem wakeOne_woken (h : Lists s R L T) : Woken s (s.wakeOne q) (R ++ L ++ T) [q] := by
  set s1 := s.modify q fun b => { b with next := none } with hs1
  have hpcb : ∀ r, s1.pcb r = if r = q then { s.pcb q with next := none } else s.pcb r :=
    fun r => Sched.modify_pcb s q _ r
  have hsleep : ∀ r, (s1.pcb r).sleepUntil = (s.pcb r).sleepUntil := by
    intro r
    rw [hpcb]
    split
    · next hr => rw [hr]
    · rfl
  have hstate : ∀ r, (s1.pcb r).state = (s.pcb r).state := by
    intro r
    rw [hpcb]
    split
    · next hr => rw [hr]
    · rfl
  have hnext : ∀ r, r ≠ q → s1.next r = s.next r := by
    intro r hr
    rw [Sched.next, hpcb, if_neg hr]
    rfl
  have hdue : s1.due q = s.due q := by
    rw [Sched.due, hsleep]
    rfl
  -- the tail of a list is on it, so that a link outside is not the one that changes
  have hready : ∀ r, r ∉ R ++ L ++ T → ¬(s1.readyListHead ≠ none ∧ s1.readyListTail = some r) := by
    intro r hr hc
    exact hr (by simp [h.ready.rho.mem_tail hc.2])
  have hsleepers : ∀ r, r ∉ R ++ L ++ T →
      ¬(s1.sleepingListHead ≠ none ∧ s1.sleepingListTail = some r) := by
    intro r hr hc
    exact hr (by simp [h.sleep.rho.mem_tail hc.2])
  have hone : s.wakeOne q = if s.due q then s1.addReady q else s1.addSleeping q := by
    rw [← hdue]
    rfl
  rw [hone]
  cases hd : s.due q with
  | true =>
    rw [if_pos rfl]
    refine ⟨?_, ?_, ?_, ?_, ?_⟩
    · rw [Sched.addReady_eq]; rfl
    · rw [Sched.addReady_eq]; rfl
    · intro r; rw [Sched.addReady_pcb]; exact hsleep r
    · intro r
      rw [Sched.addReady_state, hstate]
      by_cases hr : r = q
      · rw [if_pos hr, if_pos (by simp [hr]), hr, hd, if_pos rfl]
      · rw [if_neg hr, if_neg (by simp [hr])]
    · intro r hr hrq
      rw [mem_singleton] at hrq
      rw [Sched.addReady_next, if_neg (hready r hr), if_neg hrq, hnext r hrq]
  | false =>
    rw [if_neg (by simp)]
    refine ⟨?_, ?_, ?_, ?_, ?_⟩
    · rw [Sched.addSleeping_eq]; rfl
    · rw [Sched.addSleeping_eq]; rfl
    · intro r; rw [Sched.addSleeping_pcb]; exact hsleep r
    · intro r
      rw [Sched.addSleeping_state, hstate]
      by_cases hr : r = q
      · rw [if_pos hr, if_pos (by simp [hr]), hr, hd, if_neg (by simp)]
      · rw [if_neg hr, if_neg (by simp [hr])]
    · intro r hr hrq
      rw [mem_singleton] at hrq
      rw [Sched.addSleeping_next, if_neg (hsleepers r hr), hnext r hrq]

theorem Woken.due {s' : Sched} (h : Woken s s' V W) : s'.due = s.due := by
  funext r
  rw [Sched.due, Sched.due, h.sleepUntil, h.counter]

theorem Woken.cons {s1 s2 : Sched} {V₁ : List PcbPtr} (h : Woken s s1 V [q]) (h' : Woken s1 s2 V₁ W)
    (hV : ∀ r, r ∉ V → r ≠ q → r ∉ V₁) : Woken s s2 V (q :: W) := by
  refine ⟨h'.current.trans h.current, h'.counter.trans h.counter,
    fun r => (h'.sleepUntil r).trans (h.sleepUntil r), ?_, ?_⟩
  · intro r
    rw [h'.state, h.state, h.due]
    by_cases hr : r ∈ W
    · rw [if_pos hr, if_pos (mem_cons_of_mem _ hr)]
    · rw [if_neg hr]
      simp [hr]
  · intro r hr hrW
    rw [mem_cons, not_or] at hrW
    rw [h'.next r (hV r hr hrW.1) hrW.2, h.next r hr (by simpa using hrW.1)]

/-- **The loop of `IrqTimerHandler`**: of the list `W`, the tasks whose time has come are ready, in
order, and the others sleep again. `hd` and `tl` may be anything. -/
theorem quiet_wakes (isOpen : Machine → Prop) (m : Machine) (k : List Op)
    {hd tl : Option PcbPtr} (hi : i ≠ 0) (hp : p ≠ 0)
    (hopen : ∀ s i p c, k.length < c.length → ¬isOpen (m.closed s i p f c)) :
    ∀ {W : List PcbPtr} {s : Sched} {R L : List PcbPtr} {work : Option PcbPtr},
      Lists (s.termed hd tl) R L T → Chain s.next work W → (∀ r ∈ W, r ∉ R ++ L ++ T) →
      Quiet step isOpen (m.closed s i p f (.wake work :: k)) (m.closed (s.wakes W) i p f k) ∧
        Lists ((s.wakes W).termed hd tl) (R ++ W.filter s.due) (L ++ W.filter fun r => !s.due r) T ∧
        Woken s (s.wakes W) (R ++ L ++ T) W := by
  intro W
  induction W with
  | nil =>
    intro s R L work h hW _
    rw [chain_nil.mp hW]
    refine ⟨Quiet.single (hopen _ _ _ _ (by simp)) rfl, by simpa using h, rfl, rfl,
      fun _ => rfl, ?_, fun _ _ _ => rfl⟩
    intro r
    rw [if_neg not_mem_nil, wakes_nil]
  | cons q W ih =>
    intro s R L work h hW hdis
    obtain rfl : work = some q := hW.1
    have hqW := nodup_cons.mp hW.nodup
    obtain ⟨h1, hchain⟩ := wakeOne_lists h hW hdis
    have hwoken := wakeOne_woken (q := q) h
    rw [wakeOne_termed] at h1 hchain hwoken
    have hmem : ∀ r, r ∉ R ++ L ++ T → r ≠ q →
        r ∉ (R ++ [q].filter s.due) ++ (L ++ [q].filter fun r => !s.due r) ++ T := by
      intro r hr hrq
      simp only [mem_append, mem_filter, mem_singleton, not_or] at hr ⊢
      exact ⟨⟨⟨hr.1.1, fun hc => hrq hc.1⟩, hr.1.2, fun hc => hrq hc.1⟩, hr.2⟩
    obtain ⟨hquiet, hlists, hrest⟩ := ih h1 hchain fun r hr =>
      hmem r (hdis r (mem_cons_of_mem _ hr)) fun hc => hqW.1 (hc ▸ hr)
    have hone : Woken s (s.wakeOne q) (R ++ L ++ T) [q] :=
      ⟨hwoken.current, hwoken.counter, hwoken.sleepUntil, hwoken.state, hwoken.next⟩
    refine ⟨(quiet_wakeOne m s q k hi hp hopen).trans hquiet, ?_, hone.cons hrest hmem⟩
    rw [hone.due] at hlists
    rw [show q :: W = [q] ++ W from rfl, filter_append, filter_append,
      ← append_assoc, ← append_assoc]
    exact hlists

theorem quiet_wake (m : Machine) (k : List Op) (hi : i ≠ 0) (hp : p ≠ 0) {work : Option PcbPtr}
    (h : Lists s R L T) (hW : Chain s.next work W) (hdis : ∀ r ∈ W, r ∉ R ++ L ++ T) :
    ∃ s', QuietTo (m.closed s i p false (.wake work :: k)) (m.closed s' i p false k) ∧
      Lists s' (R ++ W.filter s.due) (L ++ W.filter fun r => !s.due r) T ∧
      Woken s s' (R ++ L ++ T) W := by
  have hself : Lists (s.termed s.terminatedListHead s.terminatedListTail) R L T := h
  obtain ⟨hquiet, hlists, hwoken⟩ := quiet_wakes _ m k hi hp
    (fun s i p c _ => not_isOpen_closed m s i p false c) hself hW hdis
  rw [← wakes_termed] at hlists
  exact ⟨s.wakes W, hquiet, hlists, hwoken⟩

end

end AthenX.Scheduler
