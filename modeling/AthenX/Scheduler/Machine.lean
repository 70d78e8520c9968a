import AthenX.Scheduler.Basic

/-!
# The scheduler as a machine

The functions of `scheduler.c`, the task switch of `scheduler.asm` and the timer handler of
`timer.c`, as a machine that makes one statement at a time. A lock is taken in one task and released
in another, and an interrupt may come wherever interrupts are enabled, so what is still to be done
on each stack is part of the state.

A stack is the list of its statements, the next one first: `code` for the one that runs, and `saved`
for those that `SwitchToTask` left. Statements that no interrupt can come between are one operation.
`PcbAlloc` runs with interrupts enabled: its test and its store are two, and two tasks may find the
same block free. That `CreateProcess` fills in a block is one, since nobody else looks at it before
it is ready. In a task's own code, in the loop of the butler and in `HLT` the machine waits.
-/

namespace AthenX.Scheduler

/-! ### Statements -/

/-- The statements of the scheduler. -/
inductive Op where
  /-- The task's own code. -/
  | user
  /-- The head of the loop of `PerformButler`. -/
  | butlerLoop
  /-- The loop of `PcbAlloc`, at the test of block `i`. -/
  | pcbTest (i : ℕ)
  /-- `PcbAlloc` takes a block that it found free. -/
  | pcbTake (p : PcbPtr)
  /-- `CreateProcess` fills in the block and its stack. -/
  | initPcb (p : PcbPtr)
  /-- `LockScheduler`. -/
  | lockScheduler
  /-- `UnlockScheduler`. -/
  | unlockScheduler
  /-- `postponeTaskCounter ++`. -/
  | postpone
  /-- `UnlockAndSchedule`, up to its call of `UnlockScheduler`. -/
  | unpostpone
  /-- `Schedule`. -/
  | schedule
  /-- `Schedule` returns to its caller. -/
  | returned
  /-- `HLT`, in the idle loop of `Schedule`. -/
  | hlt
  /-- The idle loop behind `HLT`, for the task that went idle. -/
  | idleCheck (task : PcbPtr)
  /-- `SwitchToTask`. -/
  | switchToTask (next : PcbPtr)
  /-- `currentPCB->state = reason`. -/
  | setState (reason : State)
  /-- `AddReady`. -/
  | addReady (p : PcbPtr)
  /-- `SleepUntil` once it holds the lock. -/
  | sleepTest (when_ : UInt32)
  /-- `AddTerminated(currentPCB)`. -/
  | addTerminated
  /-- `PerformButler` once it holds the lock. -/
  | butlerTest
  /-- `counter ++` of `timer_handler`. -/
  | timerCount
  /-- `IrqTimerHandler`, up to its loop. -/
  | irqTimerHandler
  /-- The loop of `IrqTimerHandler`. -/
  | wake (work : Option PcbPtr)
  /-- `IrqTimerHandler` behind its loop. -/
  | quantum
  /-- The end of the interrupt. -/
  | iret
  deriving DecidableEq, Repr

/-! ### Functions -/

/-- `LockAndPostpone`. -/
def lockAndPostpone : List Op := [.lockScheduler, .postpone]

/-- `UnlockAndSchedule`. -/
def unlockAndSchedule : List Op := [.unpostpone, .unlockScheduler]

/-- `UnlockAndSchedule`, and what comes after it. -/
abbrev unlock (k : List Op) : List Op := .unpostpone :: .unlockScheduler :: k

/-- `BlockProcess`. -/
def blockProcess (reason : State) : List Op :=
  lockAndPostpone ++ [.setState reason, .schedule] ++ unlockAndSchedule

/-- `UnblockProcess`. -/
def unblockProcess (p : PcbPtr) : List Op :=
  lockAndPostpone ++ [.addReady p] ++ unlockAndSchedule

/-- `SleepUntil`. -/
def sleepUntil (when_ : UInt32) : List Op := lockAndPostpone ++ [.sleepTest when_]

/-- `TerminateProcess`. -/
def terminateProcess (butler : PcbPtr) : List Op :=
  lockAndPostpone ++ [.addTerminated] ++ blockProcess .terminated ++ unblockProcess butler ++
    unlockAndSchedule

/-- One round of `PerformButler`. -/
def butlerRound : List Op := lockAndPostpone ++ [.butlerTest]

/-- `timer_handler`, in the frame of its interrupt. -/
def timerHandler : List Op :=
  [.timerCount] ++ lockAndPostpone ++ [.irqTimerHandler] ++ unlockAndSchedule ++ [.iret]

/-- What `CreateProcess` puts on a new stack: `ProcessStartup` and the entry point. -/
def newStack : List Op := [.unlockScheduler, .user]

/-! ### The machine -/

/-- The state of the machine. -/
structure Machine where
  sched : Sched
  /-- The stacks of the tasks that do not run. -/
  saved : PcbPtr → List Op
  /-- The stack that runs. -/
  code : List Op
  /-- Are interrupts enabled? -/
  interrupts : Bool
  /-- The task whose stack it is. -/
  owner : PcbPtr

namespace Machine

/-- The next statement is made on the variables alone. -/
def update (m : Machine) (s : Sched) (k : List Op) : Machine := { m with sched := s, code := k }

/-- `SwitchToTask`, with `k` the stack behind it. While postponed it only notes the change. -/
def switch (m : Machine) (next : PcbPtr) (k : List Op) : Option Machine :=
  if m.sched.postponeTaskCounter ≠ 0 then
    some (m.update { m.sched with taskChangePostponedFlag := true } k)
  else
    match m.sched.currentPCB with
    | none   => none
    | some c =>
      let s := if (m.sched.pcb c).state = .running then m.sched.addReady c else m.sched
      let s := s.updateTimeUsed
      let saved := Function.update m.saved c k
      let s := { s with currentPCB := some next }
      some { m with
        sched := s.modify next fun b => { b with state := .running }
        saved := saved
        code := saved next
        owner := next }

/-- `Schedule`, with `k` the stack behind the call. -/
def schedule (m : Machine) (k : List Op) : Option Machine :=
  if m.sched.postponeTaskCounter ≠ 0 then
    some (m.update { m.sched with taskChangePostponedFlag := true } k)
  else
    match m.sched.nextReady with
    | (some next, s) =>
      some (m.update (s.modify next fun b => { b with quantumLeft := timeslice })
        (.switchToTask next :: .returned :: k))
    | (none, s) =>
      match s.currentPCB with
      | none   => none
      | some c =>
        if (s.pcb c).state = .running then some (m.update s (.returned :: k))
        else some { m with
          sched := { s with currentPCB := none }
          code := .hlt :: .idleCheck c :: .returned :: k
          interrupts := true }

/-- The idle loop behind `HLT`, with `k` the stack behind `Schedule`. -/
def idleCheck (m : Machine) (task : PcbPtr) (k : List Op) : Machine :=
  match m.sched.nextReady with
  | (none, s) => { m with sched := s, code := .hlt :: .idleCheck task :: k, interrupts := true }
  | (some next, s) =>
    let s := { s with currentPCB := some task }
    let s := s.modify next fun b => { b with quantumLeft := timeslice }
    { m with
      sched := s
      code := if next ≠ task then .switchToTask next :: k else k
      interrupts := false }

end Machine

/-- One statement, with `k` the stack behind it. There is none at a wait or a null `currentPCB`. -/
def exec (m : Machine) (op : Op) (k : List Op) : Option Machine :=
  let s := m.sched
  match op with
  | .user | .butlerLoop | .hlt => none
  | .pcbTest i =>
    if hi : i < 256 then
      if (s.pcb ⟨i, hi⟩).used = 0 then some (m.update s (.pcbTake ⟨i, hi⟩ :: k))
      else some (m.update s (.pcbTest (i + 1) :: k))
    else some (m.update s k)
  | .pcbTake p => some (m.update (s.modify p fun b => { b with used := 1 }) (.initPcb p :: k))
  | .initPcb p =>
    some { m with
      sched := s.modify p fun b => { b with sleepUntil := -1, quantumLeft := 0 }
      saved := Function.update m.saved p newStack
      code := unblockProcess p ++ k }
  | .lockScheduler =>
    some { m with
      sched := { s with irqDisableCounter := s.irqDisableCounter + 1 }
      code := k
      interrupts := false }
  | .unlockScheduler =>
    some { m with
      sched := { s with irqDisableCounter := s.irqDisableCounter - 1 }
      code := k
      interrupts := m.interrupts || decide (s.irqDisableCounter - 1 = 0) }
  | .postpone =>
    some (m.update { s with postponeTaskCounter := s.postponeTaskCounter + 1 } k)
  | .unpostpone =>
    let s := { s with postponeTaskCounter := s.postponeTaskCounter - 1 }
    if s.postponeTaskCounter = 0 ∧ s.taskChangePostponedFlag = true then
      some (m.update { s with taskChangePostponedFlag := false } (.schedule :: k))
    else some (m.update s k)
  | .schedule => m.schedule k
  | .returned => some (m.update s k)
  | .idleCheck task => some (m.idleCheck task k)
  | .switchToTask next => m.switch next k
  | .setState reason =>
    s.currentPCB.map fun c => m.update (s.modify c fun b => { b with state := reason }) k
  | .addReady p => some (m.update (s.addReady p) k)
  | .sleepTest w =>
    if w < s.counter then some (m.update s (unlockAndSchedule ++ k))
    else
      s.currentPCB.map fun c =>
        m.update ((s.modify c fun b => { b with sleepUntil := w }).addSleeping c)
          (unlockAndSchedule ++ blockProcess .sleeping ++ k)
  | .addTerminated =>
    match s.currentPCB with
    | none   => some (m.update s k)
    | some c => some (m.update (s.addTerminated c) k)
  | .butlerTest =>
    match s.terminatedListHead with
    | none      => some (m.update s (blockProcess .paused ++ unlockAndSchedule ++ k))
    | some work =>
      let head := s.next work
      let s := { s with
        terminatedListHead := head
        terminatedListTail := if head = none then none else s.terminatedListTail }
      some (m.update (s.pcbFree work) (unlockAndSchedule ++ k))
  | .timerCount => some (m.update { s with counter := s.counter + 1 } k)
  | .irqTimerHandler =>
    let work := s.sleepingListHead
    some (m.update
      { s with counter := s.counter + 1, sleepingListHead := none, sleepingListTail := none }
      (.wake work :: .quantum :: k))
  | .wake none => some (m.update s k)
  | .wake (some work) =>
    let rest := s.next work
    let s := s.modify work fun b => { b with next := none }
    if (s.pcb work).sleepUntil ≤ s.counter then
      some (m.update s (unblockProcess work ++ .wake rest :: k))
    else some (m.update (s.addSleeping work) (.wake rest :: k))
  | .quantum =>
    match s.currentPCB with
    | none   => some (m.update s k)
    | some c =>
      let s := s.modify c fun b => { b with quantumLeft := b.quantumLeft - 1 }
      if (s.pcb c).quantumLeft ≤ 0 then some (m.update s (.schedule :: k))
      else some (m.update s k)
  | .iret => some { m with code := k, interrupts := true }

/-- The next statement of the stack that runs. -/
def step (m : Machine) : Option Machine :=
  match m.code with
  | []      => none
  | op :: k => exec m op k

/-! ### Calls and interrupts -/

/-- What the code that runs may ask the scheduler for. -/
inductive Call where
  | create
  | block (reason : State)
  | unblock (p : PcbPtr)
  | sleep (when_ : UInt32)
  | terminate
  | butler
  deriving DecidableEq, Repr

/-- The statements of a call. -/
def Call.body (s : Sched) : Call → List Op
  | .create       => [.pcbTest 0]
  | .block reason => blockProcess reason
  | .unblock p    => unblockProcess p
  | .sleep w      => sleepUntil w
  | .terminate    => terminateProcess s.butler
  | .butler       => butlerRound

/-- A call is made by the task's own code, and a round of the butler at the head of its loop. -/
def Call.allowed : Call → Op → Bool
  | .butler, .butlerLoop => true
  | .create, .butlerLoop => true
  | .butler, .user       => false
  | _,       .user       => true
  | _,       _           => false

/-- The machine with a call made. -/
def Machine.call (m : Machine) (c : Call) : Machine :=
  { m with code := c.body m.sched ++ m.code }

/-- The machine with a timer interrupt taken. An interrupt ends `HLT`. -/
def Machine.interrupt (m : Machine) : Machine :=
  { m with
    code := timerHandler ++ (match m.code with
      | .hlt :: k => k
      | k         => k)
    interrupts := false }

/-- What can happen next, with interrupts wherever they are enabled, and calls that are `ok`. -/
inductive Next (ok : Machine → Call → Prop) : Machine → Machine → Prop
  | step {m m' : Machine} : step m = some m' → Next ok m m'
  | call {m : Machine} {c : Call} {op : Op} {k : List Op} : m.code = op :: k →
      c.allowed op = true → ok m c → Next ok m (m.call c)
  | interrupt {m : Machine} : m.interrupts = true → Next ok m m.interrupt

/-- The states of the runs from `m₀`. -/
def Reachable (ok : Machine → Call → Prop) (m₀ : Machine) : Machine → Prop :=
  Relation.ReflTransGen (Next ok) m₀

/-! ### Runs that can be evaluated -/

/-- A part of a run: statements without an interrupt, a call, or an interrupt. -/
inductive Event where
  | steps (n : ℕ)
  | call (c : Call)
  | interrupt
  deriving DecidableEq, Repr

/-- `n` statements, without an interrupt. -/
def steps : ℕ → Machine → Option Machine
  | 0,     m => some m
  | n + 1, m => (step m).bind (steps n)

/-- The machine after a run, if the run is possible. -/
def run : List Event → Machine → Option Machine
  | [],              m => some m
  | .steps n :: es,  m => (steps n m).bind (run es)
  | .call c :: es,   m =>
      match m.code with
      | []      => none
      | op :: _ => if c.allowed op then run es (m.call c) else none
  | .interrupt :: es, m => if m.interrupts then run es m.interrupt else none

theorem reachable_steps {ok : Machine → Call → Prop} {n : ℕ} :
    ∀ {m m' : Machine}, steps n m = some m' → Reachable ok m m' := by
  induction n with
  | zero =>
    intro m m' h
    cases h
    exact .refl
  | succ n ih =>
    intro m m' h
    obtain ⟨m1, h1, h2⟩ := Option.bind_eq_some_iff.mp h
    exact .head (.step h1) (ih h2)

theorem reachable_run {ok : Machine → Call → Prop} {es : List Event}
    (hok : ∀ c, .call c ∈ es → ∀ m, ok m c) :
    ∀ {m m' : Machine}, run es m = some m' → Reachable ok m m' := by
  induction es with
  | nil =>
    intro m m' h
    cases h
    exact .refl
  | cons e es ih =>
    intro m m' h
    have hok' : ∀ c, .call c ∈ es → ∀ m, ok m c := fun c hc => hok c (List.mem_cons_of_mem _ hc)
    cases e with
    | steps n =>
      obtain ⟨m1, h1, h2⟩ := Option.bind_eq_some_iff.mp h
      exact (reachable_steps h1).trans (ih hok' h2)
    | call c =>
      simp only [run] at h
      cases hcode : m.code with
      | nil => rw [hcode] at h; cases h
      | cons op k =>
        rw [hcode] at h
        simp only at h
        split at h
        · next hc => exact .head (.call hcode hc (hok c List.mem_cons_self m)) (ih hok' h)
        · cases h
    | interrupt =>
      simp only [run] at h
      split at h
      · next hint => exact .head (.interrupt hint) (ih hok' h)
      · cases h

end AthenX.Scheduler
