import AthenX.Scheduler.Machine

/-!
# The lock discipline

`irqDisableCounter` and `postponeTaskCounter` are global, but a lock and its unlock may run in
different tasks. What balances them is the stacks: every stack left in `SwitchToTask`, and a new
one, expects to be resumed with the counters at `1` and `0`.

`Typed idle i p k` says that the stack `k` may run with the counters `i` and `p`. With `idle` one
lock is held throughout, by the `Schedule` that idles; no task change can be pending there, so the
interrupt does not call `Schedule` with two locks held. A return of `Schedule` stands only behind
the switch or the idle loop that it ends.
-/

namespace AthenX.Scheduler

open Function

/-! ### Typed stacks -/

/-- The locks held around everything: one in the idle loop. -/
def base (idle : Bool) : ℤ := if idle then 1 else 0

/-- The stack may run with `irqDisableCounter = i` and `postponeTaskCounter = p`. -/
def Typed : Bool → ℤ → ℤ → List Op → Prop
  | _,    _, _, [] => True
  | idle, i, p, .user :: _ => idle = false ∧ i = 0 ∧ p = 0
  | idle, i, p, .butlerLoop :: _ => idle = false ∧ i = 0 ∧ p = 0
  | idle, i, p, .pcbTest _ :: k => idle = false ∧ i = 0 ∧ p = 0 ∧ Typed idle i p k
  | idle, i, p, .pcbTake _ :: k => idle = false ∧ i = 0 ∧ p = 0 ∧ Typed idle i p k
  | idle, i, p, .initPcb _ :: k => idle = false ∧ i = 0 ∧ p = 0 ∧ Typed idle i p k
  | idle, i, p, .lockScheduler :: k =>
      0 ≤ p ∧ i = p + base idle ∧ k.head? ≠ some .returned ∧ Typed idle (i + 1) p k
  | idle, i, p, .unlockScheduler :: k => 0 ≤ p ∧ i = p + 1 + base idle ∧ Typed idle (i - 1) p k
  | idle, i, p, .postpone :: k => 0 ≤ p ∧ i = p + 1 + base idle ∧ Typed idle i (p + 1) k
  | idle, i, p, .unpostpone :: k =>
      1 ≤ p ∧ i = p + base idle ∧ k.head? ≠ some .returned ∧ Typed idle i (p - 1) k
  -- a call is postponed, or it is the one call of `UnlockAndSchedule` that is not
  | idle, i, p, .schedule :: k =>
      idle = false ∧ (1 ≤ p ∧ i = p ∨ p = 0 ∧ i = 1 ∧ k.head? ≠ some .returned) ∧
        Typed idle i p k
  | idle, i, p, .returned :: k =>
      idle = false ∧ i = 1 ∧ p = 0 ∧ k.head? ≠ some .returned ∧ Typed idle i p k
  | idle, i, p, .hlt :: k => idle = true ∧ i = 1 ∧ p = 0 ∧ Typed idle i p k
  -- behind the loop the task runs again
  | idle, i, p, .idleCheck _ :: k => idle = true ∧ i = 1 ∧ p = 0 ∧ Typed false i p k
  | idle, i, p, .switchToTask _ :: k => idle = false ∧ i = 1 ∧ p = 0 ∧ Typed idle i p k
  | idle, i, p, .setState _ :: k => idle = false ∧ 1 ≤ p ∧ i = p ∧ Typed idle i p k
  | idle, i, p, .addReady _ :: k => 1 ≤ p ∧ i = p + base idle ∧ Typed idle i p k
  | idle, i, p, .sleepTest _ :: k => idle = false ∧ i = 1 ∧ p = 1 ∧ Typed idle 0 0 k
  | idle, i, p, .addTerminated :: k => idle = false ∧ 1 ≤ p ∧ i = p ∧ Typed idle i p k
  | idle, i, p, .butlerTest :: k => idle = false ∧ i = 1 ∧ p = 1 ∧ Typed idle 0 0 k
  | idle, i, p, .timerCount :: k => p = 0 ∧ i = base idle ∧ Typed idle i p k
  | idle, i, p, .irqTimerHandler :: k => 1 ≤ p ∧ i = p + base idle ∧ Typed idle i p k
  | idle, i, p, .wake _ :: k => 1 ≤ p ∧ i = p + base idle ∧ Typed idle i p k
  | idle, i, p, .quantum :: k => 1 ≤ p ∧ i = p + base idle ∧ Typed idle i p k
  | idle, i, p, .iret :: k => p = 0 ∧ i = base idle ∧ Typed idle i p k

theorem typed_unlockAndSchedule {idle : Bool} {i p : ℤ} {k : List Op} (hp : 1 ≤ p)
    (hi : i = p + base idle) (hk : Typed idle (i - 1) (p - 1) k) :
    Typed idle i p (unlockAndSchedule ++ k) := by
  exact ⟨hp, hi, by simp, by omega, by omega, hk⟩

theorem typed_lockAndPostpone {idle : Bool} {i p : ℤ} {k : List Op} (hp : 0 ≤ p)
    (hi : i = p + base idle) (hk : Typed idle (i + 1) (p + 1) k) :
    Typed idle i p (lockAndPostpone ++ k) := by
  exact ⟨hp, hi, by simp, hp, by omega, hk⟩

theorem typed_unblockProcess {idle : Bool} {i p : ℤ} {k : List Op} (q : PcbPtr) (hp : 0 ≤ p)
    (hi : i = p + base idle) (hk : Typed idle i p k) : Typed idle i p (unblockProcess q ++ k) := by
  refine typed_lockAndPostpone hp hi ?_
  refine ⟨by omega, by omega, typed_unlockAndSchedule (by omega) (by omega) ?_⟩
  simpa using hk

theorem typed_blockProcess {i p : ℤ} {k : List Op} (r : State) (hp : 0 ≤ p)
    (hi : i = p) (hk : Typed false i p k) : Typed false i p (blockProcess r ++ k) := by
  rw [blockProcess, List.append_assoc, List.append_assoc]
  refine typed_lockAndPostpone hp (by simpa [base] using hi) ?_
  simp only [List.cons_append, Typed]
  refine ⟨trivial, by omega, by omega, trivial, .inl ⟨by omega, by omega⟩,
    typed_unlockAndSchedule (by omega) (by simp [base]; omega) ?_⟩
  simpa using hk

/-! ### The invariant -/

/-- Is the machine in the idle loop? -/
def Machine.idle (m : Machine) : Bool := m.sched.currentPCB.isNone

/-- The types of the stacks, and what they rest on. -/
structure Inv (m : Machine) : Prop where
  code : Typed m.idle m.sched.irqDisableCounter m.sched.postponeTaskCounter m.code
  saved : ∀ q, Typed false 1 0 (m.saved q)
  flag : m.idle = true → m.sched.taskChangePostponedFlag = false
  pending : m.sched.taskChangePostponedFlag = true → m.sched.postponeTaskCounter ≠ 0
  interrupts : m.interrupts = true →
    m.sched.irqDisableCounter = base m.idle ∧ m.sched.postponeTaskCounter = 0

/-! ### What leaves the locks alone -/

/-- The lock variables and `currentPCB` agree. -/
structure SameLocks (s s' : Sched) : Prop where
  irq : s'.irqDisableCounter = s.irqDisableCounter
  postpone : s'.postponeTaskCounter = s.postponeTaskCounter
  flag : s'.taskChangePostponedFlag = s.taskChangePostponedFlag
  current : s'.currentPCB = s.currentPCB

namespace SameLocks

theorem refl (s : Sched) : SameLocks s s := ⟨rfl, rfl, rfl, rfl⟩

theorem trans {s s' s'' : Sched} (h : SameLocks s s') (h' : SameLocks s' s'') : SameLocks s s'' :=
  ⟨h'.irq.trans h.irq, h'.postpone.trans h.postpone, h'.flag.trans h.flag,
    h'.current.trans h.current⟩

theorem modify (s : Sched) (p : PcbPtr) (f : Pcb → Pcb) : SameLocks s (s.modify p f) :=
  ⟨rfl, rfl, rfl, rfl⟩

theorem addReady (s : Sched) (task : PcbPtr) : SameLocks s (s.addReady task) := by
  rw [Sched.addReady_eq]
  exact ⟨rfl, rfl, rfl, rfl⟩

theorem addSleeping (s : Sched) (task : PcbPtr) : SameLocks s (s.addSleeping task) := by
  rw [Sched.addSleeping_eq]
  exact ⟨rfl, rfl, rfl, rfl⟩

theorem addTerminated (s : Sched) (task : PcbPtr) : SameLocks s (s.addTerminated task) := by
  rw [Sched.addTerminated_eq]
  exact ⟨rfl, rfl, rfl, rfl⟩

theorem nextReady (s : Sched) : SameLocks s s.nextReady.2 := by
  unfold Sched.nextReady
  cases s.readyListHead with
  | none => exact refl s
  | some rv => exact ⟨rfl, rfl, rfl, rfl⟩

theorem updateTimeUsed (s : Sched) : SameLocks s s.updateTimeUsed := by
  unfold Sched.updateTimeUsed
  dsimp only
  split <;> exact ⟨rfl, rfl, rfl, rfl⟩

end SameLocks

/-! ### Statements that leave the locks alone -/

/-- The task that the ready list starts with is not marked as the one that runs. -/
def HeadReady (s : Sched) : Prop :=
  ∀ p, s.readyListHead = some p → (s.pcb p).state ≠ .running

theorem HeadReady.addReady {s : Sched} (h : HeadReady s) (q : PcbPtr) :
    HeadReady (s.addReady q) := by
  intro p hp
  rw [Sched.addReady_state]
  by_cases hpq : p = q
  · rw [if_pos hpq]; decide
  · rw [if_neg hpq]
    -- another task is at the head, and it was there before
    rw [Sched.addReady_head] at hp
    cases hhead : s.readyListHead with
    | none =>
      rw [hhead] at hp
      exact absurd (Option.some.inj hp).symm hpq
    | some r =>
      rw [hhead] at hp
      exact h p (hhead.trans hp)

theorem HeadReady.addSleeping {s : Sched} (h : HeadReady s) (q : PcbPtr) :
    HeadReady (s.addSleeping q) := by
  intro p hp
  rw [Sched.addSleeping_state]
  rw [Sched.addSleeping_readyListHead] at hp
  by_cases hpq : p = q
  · rw [if_pos hpq]; decide
  · rw [if_neg hpq]; exact h p hp

theorem HeadReady.modify {s : Sched} (h : HeadReady s) (q : PcbPtr) {f : Pcb → Pcb}
    (hf : ∀ b, (f b).state = b.state) : HeadReady (s.modify q f) := by
  intro p hp
  rw [Sched.modify_pcb]
  split
  · next hpq => rw [hf, ← hpq]; exact h p hp
  · exact h p hp

/-- The statement holds no lock and makes no switch. -/
def Op.plain : Op → Bool
  | .pcbTest _ | .pcbTake _ | .returned | .setState _ | .addReady _ | .sleepTest _ => true
  | .addTerminated | .butlerTest | .timerCount | .irqTimerHandler | .wake _ | .quantum => true
  | _ => false

/-- What such a statement puts in its place on the stack. -/
inductive Becomes (idle : Bool) : Op → List Op → Prop
  | found (i : ℕ) (p : PcbPtr) : Becomes idle (.pcbTest i) [.pcbTake p]
  | next (i j : ℕ) : Becomes idle (.pcbTest i) [.pcbTest j]
  | full (i : ℕ) : Becomes idle (.pcbTest i) []
  | take (p : PcbPtr) : Becomes idle (.pcbTake p) [.initPcb p]
  | returned : Becomes idle .returned []
  | setState (r : State) : Becomes idle (.setState r) []
  | addReady (p : PcbPtr) : Becomes idle (.addReady p) []
  | elapsed (w : UInt32) : Becomes idle (.sleepTest w) unlockAndSchedule
  | sleep (w : UInt32) : Becomes idle (.sleepTest w) (unlockAndSchedule ++ blockProcess .sleeping)
  | addTerminated : Becomes idle .addTerminated []
  | pause : Becomes idle .butlerTest (blockProcess .paused ++ unlockAndSchedule)
  | freed : Becomes idle .butlerTest unlockAndSchedule
  | timerCount : Becomes idle .timerCount []
  | timer (work : Option PcbPtr) : Becomes idle .irqTimerHandler [.wake work, .quantum]
  | awake : Becomes idle (.wake none) []
  | ready (p : PcbPtr) (rest : Option PcbPtr) :
      Becomes idle (.wake (some p)) (unblockProcess p ++ [.wake rest])
  | asleep (p : PcbPtr) (rest : Option PcbPtr) : Becomes idle (.wake (some p)) [.wake rest]
  | quantum : Becomes idle .quantum []
  | expired : idle = false → Becomes idle .quantum [.schedule]

theorem Becomes.typed {idle : Bool} {i p : ℤ} {op : Op} {k l : List Op} (hf : Becomes idle op l)
    (ht : Typed idle i p (op :: k)) : Typed idle i p (l ++ k) := by
  cases hf with
  | found | next | take | asleep => exact ht
  | full | setState | addTerminated => exact ht.2.2.2
  | returned => exact ht.2.2.2.2
  | addReady | timerCount | awake | quantum => exact ht.2.2
  | elapsed | freed =>
    obtain ⟨rfl, rfl, rfl, hk⟩ := ht
    exact typed_unlockAndSchedule (le_refl _) rfl hk
  | sleep =>
    obtain ⟨rfl, rfl, rfl, hk⟩ := ht
    rw [List.append_assoc]
    exact typed_unlockAndSchedule (le_refl _) rfl (typed_blockProcess _ (le_refl _) rfl hk)
  | pause =>
    obtain ⟨rfl, rfl, rfl, hk⟩ := ht
    rw [List.append_assoc]
    exact typed_blockProcess _ (by decide) rfl (typed_unlockAndSchedule (le_refl _) rfl hk)
  | timer => exact ⟨ht.1, ht.2.1, ht⟩
  | ready =>
    rw [List.append_assoc]
    exact typed_unblockProcess _ (by have := ht.1; omega) ht.2.1 ht
  | expired hidle =>
    subst hidle
    exact ⟨rfl, .inl ⟨ht.1, ht.2.1.trans (Int.add_zero p)⟩, ht.2.2⟩

theorem exec_plain {m m' : Machine} {op : Op} {k : List Op} (hop : op.plain = true)
    (hm : exec m op k = some m') : ∃ s l, Becomes m.idle op l ∧ m' = m.update s (l ++ k) ∧
      SameLocks m.sched s ∧ (m.sched.currentPCB = none → HeadReady m.sched → HeadReady s) := by
  cases op with
  | pcbTest i =>
    simp only [exec] at hm
    split at hm
    · split at hm
      · cases hm
        exact ⟨_, _, .found _ _, rfl, .refl _, fun _ => id⟩
      · cases hm
        exact ⟨_, _, .next _ _, rfl, .refl _, fun _ => id⟩
    · cases hm
      exact ⟨_, _, .full _, rfl, .refl _, fun _ => id⟩
  | pcbTake p =>
    cases hm
    exact ⟨_, _, .take _, rfl, .modify _ _ _, fun _ hh => hh.modify p fun _ => rfl⟩
  | returned =>
    cases hm
    exact ⟨_, _, .returned, rfl, .refl _, fun _ => id⟩
  | setState reason =>
    simp only [exec, Option.map_eq_some_iff] at hm
    obtain ⟨c, hc, rfl⟩ := hm
    exact ⟨_, _, .setState _, rfl, .modify _ _ _, fun hn => nomatch hc.symm.trans hn⟩
  | addReady p =>
    cases hm
    exact ⟨_, _, .addReady _, rfl, .addReady _ _, fun _ hh => hh.addReady p⟩
  | sleepTest w =>
    simp only [exec] at hm
    split at hm
    · cases hm
      exact ⟨_, _, .elapsed _, rfl, .refl _, fun _ => id⟩
    · obtain ⟨c, hc, rfl⟩ := Option.map_eq_some_iff.mp hm
      exact ⟨_, _, .sleep _, rfl, .trans (.modify _ _ _) (.addSleeping _ _),
        fun hn => nomatch hc.symm.trans hn⟩
  | addTerminated =>
    simp only [exec] at hm
    split at hm
    · cases hm
      exact ⟨_, _, .addTerminated, rfl, .refl _, fun _ => id⟩
    · next c hc =>
      cases hm
      exact ⟨_, _, .addTerminated, rfl, .addTerminated _ _, fun hn => nomatch hc.symm.trans hn⟩
  | butlerTest =>
    simp only [exec] at hm
    split at hm
    · cases hm
      exact ⟨_, _, .pause, rfl, .refl _, fun _ => id⟩
    · next work _ =>
      cases hm
      exact ⟨_, _, .freed, rfl, ⟨rfl, rfl, rfl, rfl⟩,
        fun _ hh => .modify (by exact hh) work fun _ => rfl⟩
  | timerCount =>
    cases hm
    exact ⟨_, _, .timerCount, rfl, ⟨rfl, rfl, rfl, rfl⟩, fun _ => id⟩
  | irqTimerHandler =>
    cases hm
    exact ⟨_, _, .timer _, rfl, ⟨rfl, rfl, rfl, rfl⟩, fun _ => id⟩
  | wake work =>
    cases work with
    | none =>
      cases hm
      exact ⟨_, _, .awake, rfl, .refl _, fun _ => id⟩
    | some work =>
      simp only [exec] at hm
      split at hm
      · cases hm
        exact ⟨_, _, .ready _ _, rfl, .modify _ _ _, fun _ hh => hh.modify work fun _ => rfl⟩
      · cases hm
        refine ⟨_, _, .asleep _ _, rfl, .trans (.modify _ _ _) (.addSleeping _ _),
          fun _ hh => .addSleeping (.modify hh work ?_) work⟩
        exact fun _ => rfl
  | quantum =>
    simp only [exec] at hm
    split at hm
    · cases hm
      exact ⟨_, _, .quantum, rfl, .refl _, fun _ => id⟩
    · next c hc =>
      have hidle : m.idle = false := congrArg Option.isNone hc
      split at hm
      · cases hm
        exact ⟨_, _, .expired hidle, rfl, .modify _ _ _, fun hn => nomatch hc.symm.trans hn⟩
      · cases hm
        exact ⟨_, _, .quantum, rfl, .modify _ _ _, fun hn => nomatch hc.symm.trans hn⟩
  | _ => cases hop

/-! ### One statement -/

namespace Inv

variable {m m' : Machine} {op : Op} {k : List Op}

section

variable (h : Inv m)

include h

theorem update {s : Sched} (hs : SameLocks m.sched s)
    (hk : Typed m.idle m.sched.irqDisableCounter m.sched.postponeTaskCounter k) :
    Inv (m.update s k) := by
  have hidle : (m.update s k).idle = m.idle := congrArg Option.isNone hs.current
  refine ⟨?_, h.saved, ?_, ?_, ?_⟩
  · rw [hidle]
    show Typed m.idle s.irqDisableCounter s.postponeTaskCounter k
    rw [hs.irq, hs.postpone]
    exact hk
  · intro hi
    rw [hidle] at hi
    exact hs.flag.trans (h.flag hi)
  · intro hf
    show s.postponeTaskCounter ≠ 0
    rw [hs.postpone]
    exact h.pending (hs.flag.symm.trans hf)
  · intro hi
    rw [hidle]
    exact ⟨hs.irq.trans (h.interrupts hi).1, hs.postpone.trans (h.interrupts hi).2⟩

theorem disabled (hne : m.sched.irqDisableCounter ≠ base m.idle) : m.interrupts = false := by
  cases hi : m.interrupts with
  | false => rfl
  | true => exact absurd (h.interrupts hi).1 hne

/-- **`SwitchToTask`** resumes a stack that expects the lock of the caller. -/
theorem switch {next : PcbPtr} (hidle : m.idle = false)
    (hi : m.sched.irqDisableCounter = 1) (hp : m.sched.postponeTaskCounter = 0)
    (hk : Typed false 1 0 k) (hm : m.switch next k = some m') : Inv m' := by
  rw [Machine.switch, if_neg (not_not.mpr hp)] at hm
  cases hc : m.sched.currentPCB with
  | none => rw [hc] at hm; cases hm
  | some c =>
    rw [hc] at hm
    cases hm
    set s1 := if (m.sched.pcb c).state = .running then m.sched.addReady c else m.sched with hs1
    have h1 : SameLocks m.sched s1 := by
      rw [hs1]
      split
      · exact SameLocks.addReady _ _
      · exact SameLocks.refl _
    have h2 := h1.trans (SameLocks.updateTimeUsed s1)
    have hsaved : ∀ q, Typed false 1 0 (Function.update m.saved c k q) := by
      intro q
      by_cases hq : q = c
      · rw [hq, update_self]; exact hk
      · rw [update_of_ne hq]; exact h.saved q
    have hirq : s1.updateTimeUsed.irqDisableCounter = 1 := h2.irq.trans hi
    have hpost : s1.updateTimeUsed.postponeTaskCounter = 0 := h2.postpone.trans hp
    refine ⟨?_, hsaved, ?_, ?_, ?_⟩
    · show Typed false s1.updateTimeUsed.irqDisableCounter
        s1.updateTimeUsed.postponeTaskCounter (Function.update m.saved c k next)
      rw [hirq, hpost]
      exact hsaved next
    · intro hid
      cases hid
    · intro hf
      exact absurd hp (h.pending (h2.flag.symm.trans hf))
    · intro hint
      have := h.disabled (by rw [hidle, hi]; decide)
      rw [this] at hint
      cases hint

/-- **`Schedule`** is postponed, or it is called with one lock held. -/
theorem schedule (hidle : m.idle = false)
    (hlev : 1 ≤ m.sched.postponeTaskCounter ∧
        m.sched.irqDisableCounter = m.sched.postponeTaskCounter ∨
      m.sched.postponeTaskCounter = 0 ∧ m.sched.irqDisableCounter = 1 ∧
        k.head? ≠ some .returned)
    (hk : Typed false m.sched.irqDisableCounter m.sched.postponeTaskCounter k)
    (hm : m.schedule k = some m') : Inv m' := by
  unfold Machine.schedule at hm
  rcases hlev with ⟨hp, hi⟩ | ⟨hp, hi, hret⟩
  · rw [if_pos (by omega)] at hm
    cases hm
    refine ⟨?_, h.saved, ?_, ?_, h.interrupts⟩
    · rw [← hidle] at hk
      exact hk
    · intro hid
      exact absurd (hid.symm.trans hidle) (by decide)
    · intro _ hp0
      have hp0' : m.sched.postponeTaskCounter = 0 := hp0
      omega
  · rw [if_neg (not_not.mpr hp)] at hm
    have hs := SameLocks.nextReady m.sched
    rw [hi, hp] at hk
    have hback : Typed m.idle m.sched.irqDisableCounter m.sched.postponeTaskCounter
        (.returned :: k) := by
      rw [hidle, hi, hp]
      exact ⟨rfl, rfl, rfl, hret, hk⟩
    rcases hnr : m.sched.nextReady with ⟨_ | next, s⟩
    · rw [hnr] at hm hs
      simp only at hm hs
      cases hc : s.currentPCB with
      | none => rw [hc] at hm; cases hm
      | some c =>
        rw [hc] at hm
        simp only at hm
        split at hm
        · cases hm
          exact h.update hs hback
        · -- the machine goes idle, with no change pending
          cases hm
          have hflag : s.taskChangePostponedFlag = false := by
            rw [hs.flag]
            cases hf : m.sched.taskChangePostponedFlag with
            | false => rfl
            | true => exact absurd hp (h.pending hf)
          refine ⟨?_, h.saved, fun _ => hflag, ?_, ?_⟩
          · show Typed true s.irqDisableCounter s.postponeTaskCounter _
            rw [hs.irq, hs.postpone, hi, hp]
            exact ⟨rfl, rfl, rfl, rfl, rfl, rfl, rfl, rfl, rfl, hret, hk⟩
          · intro hf
            exact absurd (hflag.symm.trans hf) (by decide)
          · intro _
            exact ⟨hs.irq.trans hi, hs.postpone.trans hp⟩
    · rw [hnr] at hm hs
      cases hm
      refine h.update (hs.trans (SameLocks.modify _ _ _)) ?_
      rw [hidle, hi, hp] at hback ⊢
      exact ⟨rfl, rfl, rfl, hback⟩

/-- **The idle loop** goes on, or hands the lock it holds to `SwitchToTask`. -/
theorem idleCheck {task : PcbPtr} (hidle : m.idle = true) (hi : m.sched.irqDisableCounter = 1)
    (hp : m.sched.postponeTaskCounter = 0) (hk : Typed false 1 0 k) : Inv (m.idleCheck task k) := by
  have hs := SameLocks.nextReady m.sched
  have hflag := h.flag hidle
  unfold Machine.idleCheck
  rcases hnr : m.sched.nextReady with ⟨_ | next, s⟩
  · rw [hnr] at hs
    have hid : s.currentPCB.isNone = true := (congrArg Option.isNone hs.current).trans hidle
    have hirq : s.irqDisableCounter = 1 := hs.irq.trans hi
    have hpost : s.postponeTaskCounter = 0 := hs.postpone.trans hp
    refine ⟨?_, h.saved, fun _ => hs.flag.trans hflag, ?_, fun _ => ⟨?_, hpost⟩⟩
    · show Typed s.currentPCB.isNone s.irqDisableCounter s.postponeTaskCounter _
      rw [hid, hirq, hpost]
      exact ⟨rfl, rfl, rfl, rfl, rfl, rfl, hk⟩
    · intro hf
      exact absurd ((hs.flag.trans hflag).symm.trans hf) (by decide)
    · show s.irqDisableCounter = base s.currentPCB.isNone
      rw [hid, hirq]
      rfl
  · rw [hnr] at hs
    simp only at hs ⊢
    refine ⟨?_, h.saved, (fun hc => by cases hc), ?_, (fun hc => by cases hc)⟩
    · show Typed false s.irqDisableCounter s.postponeTaskCounter _
      rw [hs.irq, hs.postpone, hi, hp]
      split
      · exact ⟨rfl, rfl, rfl, hk⟩
      · exact hk
    · intro hf
      exact absurd ((hs.flag.trans hflag).symm.trans hf) (by decide)

/-- `UnlockScheduler` enables interrupts with the last lock. -/
theorem unlock (hp : 0 ≤ m.sched.postponeTaskCounter)
    (hi : m.sched.irqDisableCounter = m.sched.postponeTaskCounter + 1 + base m.idle)
    (hk : Typed m.idle (m.sched.irqDisableCounter - 1) m.sched.postponeTaskCounter k)
    (hm : exec m .unlockScheduler k = some m') : Inv m' := by
  cases hm
  have hdis := h.disabled (by omega)
  refine ⟨hk, h.saved, h.flag, h.pending, ?_⟩
  intro hint
  rw [hdis, Bool.false_or, decide_eq_true_eq] at hint
  show m.sched.irqDisableCounter - 1 = base m.idle ∧ m.sched.postponeTaskCounter = 0
  have hb : base m.idle = 0 ∨ base m.idle = 1 := by
    unfold base
    split
    · exact .inr rfl
    · exact .inl rfl
  omega

/-- `postponeTaskCounter ++`. -/
theorem postpone (hp : m.sched.irqDisableCounter = m.sched.postponeTaskCounter + 1 + base m.idle)
    (hp0 : 0 ≤ m.sched.postponeTaskCounter)
    (hk : Typed m.idle m.sched.irqDisableCounter (m.sched.postponeTaskCounter + 1) k)
    (hm : exec m .postpone k = some m') : Inv m' := by
  cases hm
  refine ⟨hk, h.saved, h.flag, ?_, ?_⟩
  · intro _ hc
    have hc' : m.sched.postponeTaskCounter + 1 = 0 := hc
    omega
  · intro hint
    have hdis := h.disabled (by omega)
    exact absurd (hdis.symm.trans hint) (by decide)

/-- `UnlockAndSchedule` makes up for a change that was postponed. -/
theorem unpostpone (hp : 1 ≤ m.sched.postponeTaskCounter)
    (hi : m.sched.irqDisableCounter = m.sched.postponeTaskCounter + base m.idle)
    (hret : k.head? ≠ some .returned)
    (hk : Typed m.idle m.sched.irqDisableCounter (m.sched.postponeTaskCounter - 1) k)
    (hm : exec m .unpostpone k = some m') : Inv m' := by
  have hdis := h.disabled (by omega)
  have hint : m.interrupts = true → ∀ P : Prop, P :=
    fun hc => absurd (hdis.symm.trans hc) (by decide)
  simp only [exec] at hm
  split at hm
  · next hcond =>
    obtain ⟨hp0, hf⟩ := hcond
    cases hm
    have hidle : m.idle = false := by
      cases hid : m.idle with
      | false => rfl
      | true => exact absurd ((h.flag hid).symm.trans hf) (by decide)
    refine ⟨?_, h.saved, fun _ => rfl, (fun hc => by cases hc), fun hc => hint hc _⟩
    show Typed m.idle m.sched.irqDisableCounter (m.sched.postponeTaskCounter - 1) (.schedule :: k)
    refine ⟨hidle, .inr ⟨hp0, ?_, hret⟩, hk⟩
    rw [hidle] at hi
    have hi' : m.sched.irqDisableCounter = m.sched.postponeTaskCounter + 0 := hi
    omega
  · next hcond =>
    cases hm
    refine ⟨hk, h.saved, h.flag, ?_, fun hc => hint hc _⟩
    intro hf hp0
    exact hcond ⟨hp0, hf⟩

/-- **One statement** of any kind. -/
theorem exec (hcode : m.code = op :: k) (hm : Scheduler.exec m op k = some m') : Inv m' := by
  have ht := h.code
  rw [hcode] at ht
  cases op with
  | user | butlerLoop | hlt => cases hm
  | initPcb p =>
    obtain ⟨hidle, hi, hp, hk⟩ := ht
    cases hm
    refine ⟨typed_unblockProcess p (le_of_eq hp.symm) ?_ hk, ?_, h.flag, h.pending, h.interrupts⟩
    · show m.sched.irqDisableCounter = m.sched.postponeTaskCounter + base m.idle
      rw [hidle, hi, hp]
      rfl
    · intro q
      by_cases hq : q = p
      · show Typed false 1 0 (Function.update m.saved p newStack q)
        rw [hq, update_self]
        exact ⟨le_refl _, rfl, rfl, rfl, rfl⟩
      · show Typed false 1 0 (Function.update m.saved p newStack q)
        rw [update_of_ne hq]
        exact h.saved q
  | lockScheduler =>
    cases hm
    exact ⟨ht.2.2.2, h.saved, h.flag, h.pending, fun hc => by cases hc⟩
  | unlockScheduler => exact h.unlock ht.1 ht.2.1 ht.2.2 hm
  | postpone => exact h.postpone ht.2.1 ht.1 ht.2.2 hm
  | unpostpone => exact h.unpostpone ht.1 ht.2.1 ht.2.2.1 ht.2.2.2 hm
  | schedule =>
    obtain ⟨hidle, hlev, hk⟩ := ht
    rw [hidle] at hk
    exact h.schedule hidle hlev hk hm
  | idleCheck task =>
    obtain ⟨hidle, hi, hp, hk⟩ := ht
    rw [hi, hp] at hk
    cases hm
    exact h.idleCheck hidle hi hp hk
  | switchToTask next =>
    obtain ⟨hidle, hi, hp, hk⟩ := ht
    rw [hidle, hi, hp] at hk
    exact h.switch hidle hi hp hk hm
  | iret =>
    obtain ⟨hp, hi, hk⟩ := ht
    cases hm
    exact ⟨hk, h.saved, h.flag, h.pending, fun _ => ⟨hi, hp⟩⟩
  | _ =>
    obtain ⟨s, l, hf, rfl, hs, -⟩ := exec_plain rfl hm
    exact h.update hs (hf.typed ht)

theorem step (hm : Scheduler.step m = some m') : Inv m' := by
  unfold Scheduler.step at hm
  cases hcode : m.code with
  | nil => rw [hcode] at hm; cases hm
  | cons op k => rw [hcode] at hm; exact h.exec hcode hm

/-- **A call** is made where both counters are `0`. -/
theorem call {c : Call} (hcode : m.code = op :: k) (hc : c.allowed op = true) : Inv (m.call c) := by
  have ht := h.code
  have hlev : m.idle = false ∧ m.sched.irqDisableCounter = 0 ∧
      m.sched.postponeTaskCounter = 0 := by
    rw [hcode] at ht
    cases op with
    | user => exact ht
    | butlerLoop => exact ht
    | _ => cases c <;> cases hc
  obtain ⟨hidle, hi, hp⟩ := hlev
  refine ⟨?_, h.saved, h.flag, h.pending, h.interrupts⟩
  show Typed m.idle m.sched.irqDisableCounter m.sched.postponeTaskCounter (c.body m.sched ++ m.code)
  rw [hidle, hi, hp] at ht ⊢
  cases c with
  | create => exact ⟨rfl, rfl, rfl, ht⟩
  | block r => exact typed_blockProcess r (le_refl _) rfl ht
  | unblock p => exact typed_unblockProcess p (le_refl _) rfl ht
  | sleep w =>
    exact typed_lockAndPostpone (le_refl _) rfl ⟨rfl, rfl, rfl, ht⟩
  | terminate =>
    refine typed_lockAndPostpone (le_refl _) rfl ⟨rfl, le_refl _, rfl, ?_⟩
    refine typed_blockProcess _ (by decide) rfl (typed_unblockProcess _ (by decide) rfl ?_)
    exact typed_unlockAndSchedule (le_refl _) rfl ht
  | butler =>
    exact typed_lockAndPostpone (le_refl _) rfl ⟨rfl, rfl, rfl, ht⟩

/-- **An interrupt** comes where no lock is held, or only that of the idle loop. -/
theorem interrupt (hint : m.interrupts = true) : Inv m.interrupt := by
  obtain ⟨hi, hp⟩ := h.interrupts hint
  have ht := h.code
  refine ⟨?_, h.saved, h.flag, h.pending, fun hc => by cases hc⟩
  show Typed m.idle m.sched.irqDisableCounter m.sched.postponeTaskCounter (timerHandler ++ _)
  rw [hi, hp] at ht ⊢
  refine ⟨rfl, rfl,
    typed_lockAndPostpone (le_refl _) (Int.zero_add _).symm ⟨by decide, by omega, ?_⟩⟩
  refine typed_unlockAndSchedule (by decide) (by omega) ?_
  rw [Int.add_sub_cancel]
  refine ⟨rfl, rfl, ?_⟩
  split
  · next k hk => rw [hk] at ht; exact ht.2.2.2
  · exact ht

end

end Inv

/-! ### Runs -/

/-- A task's own code runs: no lock is held, no change is pending, and other tasks are new. -/
structure Started (m : Machine) : Prop where
  code : m.code = [.user] ∨ m.code = [.butlerLoop]
  irq : m.sched.irqDisableCounter = 0
  postpone : m.sched.postponeTaskCounter = 0
  flag : m.sched.taskChangePostponedFlag = false
  current : m.sched.currentPCB = some m.owner
  saved : ∀ q, m.saved q = [] ∨ m.saved q = newStack

theorem Started.inv {m : Machine} (h : Started m) : Inv m := by
  have hidle : m.idle = false := congrArg Option.isNone h.current
  refine ⟨?_, ?_, ?_, ?_, ?_⟩
  · rw [hidle, h.irq, h.postpone]
    rcases h.code with hc | hc
    · rw [hc]; exact ⟨rfl, rfl, rfl⟩
    · rw [hc]; exact ⟨rfl, rfl, rfl⟩
  · intro q
    rcases h.saved q with hq | hq
    · rw [hq]; trivial
    · rw [hq]; exact ⟨le_refl _, rfl, rfl, rfl, rfl⟩
  · intro _
    exact h.flag
  · intro hf
    exact absurd (h.flag.symm.trans hf) (by decide)
  · intro _
    rw [hidle]
    exact ⟨h.irq, h.postpone⟩

theorem Inv.next {ok : Machine → Call → Prop} {m m' : Machine} (h : Inv m)
    (hn : Next ok m m') : Inv m' := by
  cases hn with
  | step hm => exact h.step hm
  | call hcode hc _ => exact h.call hcode hc
  | interrupt hint => exact h.interrupt hint

/-- **The stacks are typed in every run.** -/
theorem inv_of_reachable {ok : Machine → Call → Prop} {m0 m : Machine} (h0 : Started m0)
    (h : Reachable ok m0 m) : Inv m := by
  induction h with
  | refl => exact h0.inv
  | tail _ hn ih => exact ih.next hn

/-- **The lock discipline.** `SwitchToTask` is entered with `irqDisableCounter = 1` and
`postponeTaskCounter = 0`. Both are `0` in a task's own code, in the butler's loop, and when an
interrupt of a task ends. -/
theorem locks_of_reachable {m₀ m : Machine} (h₀ : Started m₀)
    (h : Reachable (fun _ _ => True) m₀ m) :
    (∀ next k, m.code = .switchToTask next :: k →
      m.sched.irqDisableCounter = 1 ∧ m.sched.postponeTaskCounter = 0) ∧
    (∀ op k, m.code = op :: k → op = .user ∨ op = .butlerLoop →
      m.sched.irqDisableCounter = 0 ∧ m.sched.postponeTaskCounter = 0) ∧
    (∀ k, m.code = .iret :: k → m.sched.currentPCB ≠ none →
      m.sched.irqDisableCounter = 0 ∧ m.sched.postponeTaskCounter = 0) := by
  have ht := (inv_of_reachable h₀ h).code
  refine ⟨?_, ?_, ?_⟩
  · intro next k hk
    rw [hk] at ht
    exact ⟨ht.2.1, ht.2.2.1⟩
  · rintro op k hk (rfl | rfl)
    · rw [hk] at ht; exact ⟨ht.2.1, ht.2.2⟩
    · rw [hk] at ht; exact ⟨ht.2.1, ht.2.2⟩
  · intro k hk hne
    rw [hk] at ht
    have hidle : m.idle = false := by
      cases hc : m.sched.currentPCB with
      | none => exact absurd hc hne
      | some c => exact congrArg Option.isNone hc
    refine ⟨ht.2.1.trans ?_, ht.1⟩
    rw [hidle]
    rfl

/-- The machine after `InitScheduler`, at the head of the butler's loop. -/
def bootMachine : Machine where
  sched := Sched.initScheduler
    { pcb := fun _ => ⟨none, .running, 0, 0, 0⟩
      irqDisableCounter := 0
      postponeTaskCounter := 0
      taskChangePostponedFlag := false
      currentPCB := none
      readyListHead := none
      readyListTail := none
      sleepingListHead := none
      sleepingListTail := none
      terminatedListHead := none
      terminatedListTail := none
      butler := 0
      counter := 0
      lastCounter := 0
      idleCPUTime := 0 }
  saved := fun _ => []
  code := [.butlerLoop]
  interrupts := true
  owner := 0

theorem started_bootMachine : Started bootMachine :=
  ⟨.inr rfl, rfl, rfl, rfl, rfl, fun _ => .inl rfl⟩

/-- A process is created, and the next interrupt enters `SwitchToTask`. -/
theorem locks_of_reachable_bootMachine : Started bootMachine ∧
    ∃ m k, Reachable (fun _ _ => True) bootMachine m ∧ m.code = .switchToTask 1 :: k ∧
      m.sched.irqDisableCounter = 1 ∧ m.sched.postponeTaskCounter = 0 := by
  have hrun : (run [.call .create, .steps 9, .interrupt, .steps 9] bootMachine).map
      Machine.code = some [.switchToTask 1, .returned, .unlockScheduler, .iret, .butlerLoop] := by
    decide
  obtain ⟨m, hm, hcode⟩ := Option.map_eq_some_iff.mp hrun
  have hreach : Reachable (fun _ _ => True) bootMachine m := reachable_run (fun _ _ _ => trivial) hm
  exact ⟨started_bootMachine, m, _, hreach, hcode,
    (locks_of_reachable started_bootMachine hreach).1 1 _ hcode⟩

end AthenX.Scheduler
