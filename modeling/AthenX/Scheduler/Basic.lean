import AthenX.Lib.Rho

/-!
# The data of the scheduler

The process control blocks of `kernel/multitasking/scheduler.c`, their lists and the functions that
only change these. The one `next` field links the ready, the sleeping and the terminated tasks
alike. The lock counters stay far from overflow and are integers; the times have 32 bits. A store
through a null tail touches no block.
-/

namespace AthenX.Scheduler

/-- A pointer into `pcbArray`, which has `MAX_TASKS` elements. -/
abbrev PcbPtr := Fin 256

instance neZero_tasks : NeZero 256 := ⟨by decide⟩

/-- `ProcessState_t`. -/
inductive State where
  | running
  | ready
  | paused
  | sleeping
  | terminated
  deriving DecidableEq, Repr

/-- `PCB_t`, without the stack pointer. -/
structure Pcb where
  next : Option PcbPtr
  state : State
  /-- Time used; `0` marks a block that is free. -/
  used : UInt32
  sleepUntil : UInt32
  quantumLeft : Int32
  deriving DecidableEq, Repr

/-- The global variables of the scheduler. -/
structure Sched where
  /-- `pcbArray`. -/
  pcb : PcbPtr → Pcb
  irqDisableCounter : ℤ
  postponeTaskCounter : ℤ
  taskChangePostponedFlag : Bool
  currentPCB : Option PcbPtr
  readyListHead : Option PcbPtr
  readyListTail : Option PcbPtr
  sleepingListHead : Option PcbPtr
  sleepingListTail : Option PcbPtr
  terminatedListHead : Option PcbPtr
  terminatedListTail : Option PcbPtr
  butler : PcbPtr
  counter : UInt32
  lastCounter : UInt32
  idleCPUTime : UInt32

/-- `TIMESLICE`. -/
def timeslice : Int32 := 1

namespace Sched

/-- The `next` field of a block. -/
def next (s : Sched) (p : PcbPtr) : Option PcbPtr := (s.pcb p).next

/-- One block changed. -/
def modify (s : Sched) (p : PcbPtr) (f : Pcb → Pcb) : Sched :=
  { s with pcb := Function.update s.pcb p (f (s.pcb p)) }

theorem modify_pcb (s : Sched) (p : PcbPtr) (f : Pcb → Pcb) (q : PcbPtr) :
    (s.modify p f).pcb q = if q = p then f (s.pcb p) else s.pcb q := by
  simp [modify, Function.update_apply]

theorem modify_self (s : Sched) (p : PcbPtr) (f : Pcb → Pcb) :
    (s.modify p f).pcb p = f (s.pcb p) := by
  rw [modify_pcb, if_pos rfl]

/-- The end of a list that is not empty linked to `task`. -/
def linkLast (s : Sched) (head tail : Option PcbPtr) (task : PcbPtr) : Sched :=
  if head = none then s else
    match tail with
    | some t => s.modify t fun b => { b with next := some task }
    | none   => s

/-- `AddReady`, on a task that is not null. -/
def addReady (s : Sched) (task : PcbPtr) : Sched :=
  let s := s.modify task fun b => { b with state := .ready, next := none }
  { s.linkLast s.readyListHead s.readyListTail task with
    readyListHead := s.readyListHead.or (some task)
    readyListTail := some task }

/-- `AddSleeping`, on a task that is not null. `next` of the task stays. -/
def addSleeping (s : Sched) (task : PcbPtr) : Sched :=
  let s := s.modify task fun b => { b with state := .sleeping }
  { s.linkLast s.sleepingListHead s.sleepingListTail task with
    sleepingListHead := s.sleepingListHead.or (some task)
    sleepingListTail := some task }

/-- `AddTerminated`, on a task that is not null. It sets `SLEEPING` too, and `next` stays. -/
def addTerminated (s : Sched) (task : PcbPtr) : Sched :=
  let s := s.modify task fun b => { b with state := .sleeping }
  { s.linkLast s.terminatedListHead s.terminatedListTail task with
    terminatedListHead := s.terminatedListHead.or (some task)
    terminatedListTail := some task }

/-- `NextReady` once it has found the head `rv` of the list. -/
def popReady (s : Sched) (rv : PcbPtr) : Sched :=
  let head := s.next rv
  let s := { s with
    readyListHead := head
    readyListTail := if head = none then none else s.readyListTail }
  s.modify rv fun b => { b with next := none }

/-- `NextReady`. -/
def nextReady (s : Sched) : Option PcbPtr × Sched :=
  match s.readyListHead with
  | none    => (none, s)
  | some rv => (some rv, s.popReady rv)

/-- `UpdateTimeUsed`. -/
def updateTimeUsed (s : Sched) : Sched :=
  let c := s.lastCounter
  let s := { s with lastCounter := s.counter }
  match s.currentPCB with
  | none   => { s with idleCPUTime := s.idleCPUTime + (s.lastCounter - c) }
  | some p => s.modify p fun b => { b with used := b.used + (s.lastCounter - c) }

/-- `PcbFree`. -/
def pcbFree (s : Sched) (p : PcbPtr) : Sched :=
  s.modify p fun b => { b with used := 0 }

/-- `InitScheduler`. -/
def initScheduler (s : Sched) : Sched :=
  { s with
    pcb := fun i =>
      if i = 0 then
        { s.pcb 0 with used := 1, state := .running, next := none, quantumLeft := 0 }
      else { s.pcb i with used := 0 }
    currentPCB := some 0
    butler := 0
    readyListHead := none
    readyListTail := none
    sleepingListHead := none
    sleepingListTail := none
    terminatedListHead := none
    terminatedListTail := none
    lastCounter := s.counter }

/-! ### What the functions do to a block -/

section

variable (s : Sched)

include s

/-- Linking changes `next` of one block. -/
theorem linkLast_pcb (head tail : Option PcbPtr) (task q : PcbPtr) :
    (s.linkLast head tail task).pcb q =
      if head ≠ none ∧ tail = some q then { s.pcb q with next := some task } else s.pcb q := by
  unfold linkLast
  by_cases hh : head = none
  · rw [if_pos hh, if_neg fun hc => hc.1 hh]
  · rw [if_neg hh]
    cases tail with
    | none => rw [if_neg fun hc => by cases hc.2]
    | some t =>
      rw [modify_pcb]
      by_cases hq : q = t
      · rw [if_pos hq, if_pos ⟨hh, by rw [hq]⟩, hq]
      · rw [if_neg hq, if_neg fun hc => hq (Option.some.inj hc.2).symm]

theorem linkLast_eq (head tail : Option PcbPtr) (task : PcbPtr) :
    s.linkLast head tail task = { s with pcb := (s.linkLast head tail task).pcb } := by
  unfold linkLast
  split
  · rfl
  · cases tail <;> rfl

theorem linkLast_block (head tail : Option PcbPtr) (task q : PcbPtr) :
    (s.linkLast head tail task).pcb q =
      { s.pcb q with next := (s.linkLast head tail task).next q } := by
  rw [next, linkLast_pcb]
  split <;> rfl

theorem addReady_eq (task : PcbPtr) : s.addReady task =
      { s with
        pcb := (s.addReady task).pcb
        readyListHead := s.readyListHead.or (some task)
        readyListTail := some task } := by
  rw [addReady, linkLast_eq]
  rfl

theorem addSleeping_eq (task : PcbPtr) : s.addSleeping task =
      { s with
        pcb := (s.addSleeping task).pcb
        sleepingListHead := s.sleepingListHead.or (some task)
        sleepingListTail := some task } := by
  rw [addSleeping, linkLast_eq]
  rfl

theorem addTerminated_eq (task : PcbPtr) : s.addTerminated task =
      { s with
        pcb := (s.addTerminated task).pcb
        terminatedListHead := s.terminatedListHead.or (some task)
        terminatedListTail := some task } := by
  rw [addTerminated, linkLast_eq]
  rfl

/-- Of a block, `AddReady` changes the state and the link. -/
theorem addReady_pcb (task q : PcbPtr) : (s.addReady task).pcb q =
      { s.pcb q with
        state := if q = task then .ready else (s.pcb q).state
        next := (s.addReady task).next q } := by
  refine (linkLast_block (s.modify task _) _ _ _ _).trans ?_
  rw [modify_pcb]
  split
  · next hq => rw [hq]; rfl
  · rfl

theorem addSleeping_pcb (task q : PcbPtr) : (s.addSleeping task).pcb q =
      { s.pcb q with
        state := if q = task then .sleeping else (s.pcb q).state
        next := (s.addSleeping task).next q } := by
  refine (linkLast_block (s.modify task _) _ _ _ _).trans ?_
  rw [modify_pcb]
  split
  · next hq => rw [hq]; rfl
  · rfl

theorem addTerminated_pcb (task q : PcbPtr) : (s.addTerminated task).pcb q =
      { s.pcb q with
        state := if q = task then .sleeping else (s.pcb q).state
        next := (s.addTerminated task).next q } := by
  refine (linkLast_block (s.modify task _) _ _ _ _).trans ?_
  rw [modify_pcb]
  split
  · next hq => rw [hq]; rfl
  · rfl

theorem addReady_state (task q : PcbPtr) :
    ((s.addReady task).pcb q).state = if q = task then .ready else (s.pcb q).state := by
  rw [addReady_pcb]

theorem addSleeping_state (task q : PcbPtr) :
    ((s.addSleeping task).pcb q).state = if q = task then .sleeping else (s.pcb q).state := by
  rw [addSleeping_pcb]

theorem popReady_pcb (rv q : PcbPtr) :
    (s.popReady rv).pcb q = if q = rv then { s.pcb q with next := none } else s.pcb q := by
  rw [popReady, modify_pcb]
  split
  · next hq => rw [hq]
  · rfl

theorem updateTimeUsed_eq : s.updateTimeUsed =
      { s with
        pcb := s.updateTimeUsed.pcb
        lastCounter := s.counter
        idleCPUTime := s.updateTimeUsed.idleCPUTime } := by
  unfold updateTimeUsed
  cases s.currentPCB <;> rfl

/-- `UpdateTimeUsed` charges the time to the current task. -/
theorem updateTimeUsed_pcb (q : PcbPtr) : s.updateTimeUsed.pcb q =
      if s.currentPCB = some q then
        { s.pcb q with used := (s.pcb q).used + (s.counter - s.lastCounter) }
      else s.pcb q := by
  unfold updateTimeUsed
  cases hc : s.currentPCB with
  | none => rw [if_neg (by simp)]
  | some p =>
    rw [modify_pcb]
    by_cases hq : q = p
    · rw [if_pos hq, if_pos (by rw [hq]), hq]
    · rw [if_neg hq, if_neg fun h => hq (Option.some.inj h).symm]

theorem popReady_state (rv q : PcbPtr) : ((s.popReady rv).pcb q).state = (s.pcb q).state := by
  rw [popReady, modify_pcb]
  split
  · next hq => rw [hq]
  · rfl

end

theorem nextReady_of_none {s : Sched} (h : s.readyListHead = none) : s.nextReady = (none, s) := by
  rw [nextReady, h]

theorem nextReady_of_some {s : Sched} {rv : PcbPtr} (h : s.readyListHead = some rv) :
    s.nextReady = (some rv, s.popReady rv) := by
  rw [nextReady, h]

@[simp] theorem addReady_head (s : Sched) (task : PcbPtr) :
    (s.addReady task).readyListHead = s.readyListHead.or (some task) := rfl

@[simp] theorem addSleeping_readyListHead (s : Sched) (task : PcbPtr) :
    (s.addSleeping task).readyListHead = s.readyListHead := by
  rw [addSleeping_eq]

end Sched

end AthenX.Scheduler
