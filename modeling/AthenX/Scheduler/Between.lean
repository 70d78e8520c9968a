import AthenX.Scheduler.Moves

/-!
# The stacks between moves

`Between` lists where the stacks can be while interrupts are enabled, and a move does to the
variables what its function of `AthenX.Scheduler.Atomic` does. The blocks being filled in belong to
no list, and one task fills in each, unless an interrupt comes between the test of a block in
`PcbAlloc` and the store that takes it.
-/

namespace AthenX.Scheduler

open Linked Settling List Option Function

/-! ### Stacks between moves -/

/-- What the first task, which will be the butler, does, and the calls that are made. -/
structure Setting where
  first : Op
  calls : Call → Prop
  waits : first = .user ∨ first = .butlerLoop
  basic : ∀ c, calls c → c = .create ∨ c = .terminate ∨ c = .butler
  /-- The butler does not terminate. -/
  terminate : calls .terminate → first = .butlerLoop

/-- Where the task `q` is in its own code, if `b` is the butler. -/
def Setting.home (E : Setting) (b q : PcbPtr) : Op := if q = b then E.first else .user

/-- The code of a task with its own code `h`, and the block that it is filling in. -/
inductive Code (E : Setting) (b : PcbPtr) (saved : PcbPtr → List Op) (h : Op) :
    List Op → Option PcbPtr → Prop
  | home : Code E b saved h [h] none
  | test (i : ℕ) : Code E b saved h [.pcbTest i, h] none
  | fill (p : PcbPtr) : Code E b saved h [.initPcb p, h] (some p)
  | add {p : PcbPtr} : saved p = newStack → Code E b saved h (unblockProcess p ++ [h]) (some p)
  | terminate : E.calls .terminate → h = .user →
      Code E b saved h (terminateProcess b ++ [h]) none
  | butler : E.calls .butler → h = .butlerLoop → Code E b saved h (butlerRound ++ [h]) none
  /-- An interrupt came here. -/
  | iret {k : List Op} {o : Option PcbPtr} : Code E b saved h k o →
      Code E b saved h (.iret :: k) o

/-- The stack of a task that does not run: a new one, or one left in `Schedule`. -/
inductive ParkedAt (E : Setting) (b : PcbPtr) (saved : PcbPtr → List Op) (h : Op) :
    List Op → Option PcbPtr → Prop
  | new : h = .user → ParkedAt E b saved h newStack none
  | left {k : List Op} {o : Option PcbPtr} : Code E b saved h k o →
      ParkedAt E b saved h (.returned :: .unlockScheduler :: k) o

/-- The code that runs is that of the current task. -/
abbrev Machine.InTask (m : Machine) : Prop := m.sched.currentPCB = some m.owner

/-- The rest of the idle loop of `Schedule`, called for `o`. -/
abbrev Setting.idle (E : Setting) (o : PcbPtr) : List Op :=
  [.idleCheck o, .returned, .unlockScheduler, E.first]

/-- Where the machine is between moves; the task that runs is filling in `o`. -/
inductive Place (E : Setting) (m : Machine) (o : Option PcbPtr) : Prop
  | runs : m.InTask → m.sched.irqDisableCounter = 0 →
      Code E m.sched.butler m.saved (E.home m.sched.butler m.owner) m.code o → Place E m o
  /-- In `PcbAlloc`, between the test and the store. -/
  | takes {p : PcbPtr} : m.InTask → m.sched.irqDisableCounter = 0 →
      m.code = [.pcbTake p, E.home m.sched.butler m.owner] → (m.sched.pcb p).used = 0 →
      o = none → Place E m o
  | idles : m.sched.currentPCB = none → m.sched.irqDisableCounter = 1 →
      m.owner = m.sched.butler →
      m.code = E.idle m.owner → o = none → Place E m o
  | halts : m.sched.currentPCB = none → m.sched.irqDisableCounter = 1 →
      m.owner = m.sched.butler →
      m.code = .hlt :: E.idle m.owner → o = none →
      Place E m o

/-- The stacks between moves; `pend` gives the blocks that the tasks are filling in. -/
structure Between (E : Setting) (m : Machine) (R : List PcbPtr) (pend : PcbPtr → Option PcbPtr) :
    Prop where
  interrupts : m.interrupts = true
  postpone : m.sched.postponeTaskCounter = 0
  flag : m.sched.taskChangePostponedFlag = false
  parked : ∀ q, q = m.sched.butler ∨ q ∈ R → q ≠ m.owner →
    ParkedAt E m.sched.butler m.saved (E.home m.sched.butler q) (m.saved q) (pend q)
  place : Place E m (pend m.owner)

variable {c p q : PcbPtr} {v : Move} {s : Sched}

section

variable {E : Setting} {b : PcbPtr} {saved saved' : PcbPtr → List Op} {h : Op} {k : List Op}
  {o : Option PcbPtr}

theorem Code.mono (hk : Code E b saved h k o) (hs : ∀ p, o = some p → saved' p = saved p) :
    Code E b saved' h k o := by
  induction hk with
  | home => exact .home
  | test i => exact .test i
  | fill p => exact .fill p
  | add hp => exact .add ((hs _ rfl).trans hp)
  | terminate hc hh => exact .terminate hc hh
  | butler hc hh => exact .butler hc hh
  | iret _ ih => exact .iret (ih hs)

theorem ParkedAt.mono (hk : ParkedAt E b saved h k o)
    (hs : ∀ p, o = some p → saved' p = saved p) : ParkedAt E b saved' h k o := by
  cases hk with
  | new hh => exact .new hh
  | left hk => exact .left (hk.mono hs)

theorem ParkedAt.resumes (hk : ParkedAt E b saved h k o) (m : Machine) (s : Sched) :
    ∃ k', Code E b saved h k' o ∧ QuietTo (m.closed s 1 0 false k) (m.opened s 0 k') := by
  cases hk with
  | new hh =>
    subst hh
    exact ⟨[.user], .home, quiet_unlock m s [.user]⟩
  | @left k' _ hk =>
    exact ⟨k', hk, quiet_step rfl (quiet_unlock m s k')⟩

theorem Setting.home_ne_hlt (E : Setting) (b q : PcbPtr) : E.home b q ≠ .hlt := by
  unfold Setting.home
  split
  · rcases E.waits with hw | hw
    · rw [hw]
      decide
    · rw [hw]
      decide
  · decide

theorem Code.head_ne_hlt (hk : Code E b saved (E.home b q) k o) : k.head? ≠ some .hlt := by
  cases hk with
  | home => exact fun hc => E.home_ne_hlt b q (some.inj hc)
  | _ => simp [unblockProcess, terminateProcess, butlerRound, lockAndPostpone]

end

/-! ### Where a move leaves the stacks -/

/-- What a move leaves: `s`, and stacks for any ready list of tasks that have one. -/
def Leaves (E : Setting) (s : Sched) (S : PcbPtr → Prop) (pend : PcbPtr → Option PcbPtr)
    (m' : Machine) : Prop :=
  (∃ i, m'.sched = s.locked i 0 false) ∧ ∀ R', (∀ q ∈ R', S q) → Between E m' R' pend

section

variable {E : Setting} {m : Machine} {s : Sched} {R : List PcbPtr} {S : PcbPtr → Prop}
  {pend : PcbPtr → Option PcbPtr} {k : List Op}

theorem leaves_opened (hcur : s.currentPCB = some m.owner)
    (hk : Code E s.butler m.saved (E.home s.butler m.owner) k (pend m.owner))
    (hparked : ∀ q, q = s.butler ∨ S q → q ≠ m.owner →
      ParkedAt E s.butler m.saved (E.home s.butler q) (m.saved q) (pend q)) :
    Leaves E s S pend (m.opened s 0 k) := by
  refine ⟨⟨0, rfl⟩, fun R' hR' => ⟨rfl, rfl, rfl, ?_, .runs hcur rfl hk⟩⟩
  intro q hq hne
  exact hparked q (hq.imp id (hR' q)) hne

/-- **`Schedule`** comes to an end as `dispatch` does. -/
theorem lands_dispatch (hcur : s.currentPCB = some m.owner)
    (hS : ∀ q, S q → q = s.butler ∨ q = m.owner ∨ q ∈ R)
    (hhead : ∀ n, s.readyListHead = some n → n = s.butler ∨ n ∈ R)
    (hparked : ∀ q, q = s.butler ∨ q ∈ R → q ≠ m.owner →
      ParkedAt E s.butler m.saved (E.home s.butler q) (m.saved q) (pend q))
    (hk : Code E s.butler m.saved (E.home s.butler m.owner) k (pend m.owner))
    (hpend : ∀ q, q = s.butler ∨ q = m.owner ∨ q ∈ R → pend q ≠ some m.owner)
    (hidle : s.readyListHead = none → (s.pcb m.owner).state ≠ .running →
      m.owner = s.butler ∧ k = [E.first] ∧ pend m.owner = none) :
    ∃ m', Lands step IsOpen (m.closed s 1 0 false (.schedule :: .unlockScheduler :: k)) m' ∧
      Leaves E s.dispatch S pend m' := by
  have hfrom : ∀ q, q = s.butler ∨ S q → q ≠ m.owner → q = s.butler ∨ q ∈ R := by
    rintro q (hq | hq) hne
    · exact .inl hq
    · rcases hS q hq with hq | hq | hq
      · exact .inl hq
      · exact absurd hq hne
      · exact .inr hq
  cases hn : s.readyListHead with
  | none =>
    by_cases hst : (s.pcb m.owner).state = .running
    · have hd : s.dispatch = s := by simp [Sched.dispatch, hcur, hn, hst]
      have hquiet := (quiet_direct m (.unlockScheduler :: k) hcur hn hst).trans (quiet_unlock m s k)
      rw [hd]
      exact ⟨m.opened s 0 k, hquiet.lands (Lands.here rfl),
        leaves_opened hcur hk fun q hq hne => hparked q (hfrom q hq hne) hne⟩
    · obtain ⟨hb, rfl, hnone⟩ := hidle hn hst
      have hd : s.dispatch = { s with currentPCB := none } := by
        simp [Sched.dispatch, hcur, hn, hst]
      rw [hd]
      refine ⟨m.opened { s with currentPCB := none } 1 (.hlt :: E.idle m.owner),
        (quiet_idle m [.unlockScheduler, E.first] hcur hn hst).lands (Lands.here rfl),
        ⟨1, rfl⟩, fun R' hR' => ⟨rfl, rfl, rfl, ?_, ?_⟩⟩
      · intro q hq hne
        exact hparked q (hfrom q (hq.imp id (hR' q)) hne) hne
      · exact .halts rfl rfl hb rfl hnone
  | some n =>
    have hd : s.dispatch = s.switched m.owner n := by
      simp [Sched.dispatch, hcur, hn]
    obtain ⟨hc', -, -, hb'⟩ := switched_eq s m.owner n
    set saved := update m.saved m.owner (.returned :: .unlockScheduler :: k) with hsaved
    -- no stack that is ready for a new task is the one that is saved
    have hkeep : ∀ q, q = s.butler ∨ q = m.owner ∨ q ∈ R →
        ∀ p, pend q = some p → saved p = m.saved p := by
      intro q hq p hp
      rw [hsaved, update_of_ne]
      rintro rfl
      exact hpend q hq hp
    have hparked' : ∀ q, q = s.butler ∨ q = m.owner ∨ q ∈ R →
        ParkedAt E s.butler saved (E.home s.butler q) (saved q) (pend q) := by
      intro q hq
      by_cases hne : q = m.owner
      · rw [hne, hsaved, update_self]
        exact .left (hk.mono (hkeep m.owner (.inr (.inl rfl))))
      · rw [hsaved, update_of_ne hne]
        refine (hparked q ?_ hne).mono (hkeep q hq)
        rcases hq with hq | hq | hq
        · exact .inl hq
        · exact absurd hq hne
        · exact .inr hq
    set m₁ : Machine := { m with saved := saved, owner := n } with hm1
    have hnR : n = s.butler ∨ n = m.owner ∨ n ∈ R := (hhead n hn).imp id .inr
    obtain ⟨k', hk', hquiet⟩ := (hparked' n hnR).resumes m₁ (s.switched m.owner n)
    rw [hd]
    refine ⟨m₁.opened (s.switched m.owner n) 0 k', ?_, ?_⟩
    · refine (quiet_switch m (.unlockScheduler :: k) hcur hn).lands ?_
      exact hquiet.lands (Lands.here rfl)
    · refine leaves_opened hc' (by rw [hb']; exact hk') ?_
      intro q hq _
      rw [hb'] at hq ⊢
      refine hparked' q ?_
      rcases hq with hq | hq
      · exact .inl hq
      · exact hS q hq

end

/-! ### Blocks that are being filled in -/

/-- The blocks that the tasks are filling in after the task `c` did `a`. -/
def Act.pend (a : Act) (c : PcbPtr) (pend : PcbPtr → Option PcbPtr) : PcbPtr → Option PcbPtr :=
  match a with
  | .take p => Function.update pend c (some p)
  | .add p  => Function.update (Function.update pend c none) p none
  | _       => pend

/-- The blocks being filled in are taken, belong to no task, and one task fills in each. -/
structure Creating (s : Sched) (R T : List PcbPtr) (pend : PcbPtr → Option PcbPtr) : Prop where
  fresh : ∀ q p, InPlay s R q → pend q = some p → Fresh s R T p
  used : ∀ q p, InPlay s R q → pend q = some p → (s.pcb p).used = 1
  inj : ∀ q q' p, InPlay s R q → InPlay s R q' → pend q = some p → pend q' = some p → q = q'

namespace Creating

variable {s : Sched} {loop loop' : Bool} {R T R' T' : List PcbPtr}
  {pend : PcbPtr → Option PcbPtr} {a : Act} {c : PcbPtr}

section

variable (h : Creating s R T pend) (ht : Tasks s loop R T) (hl : ListStep s loop R T a loop' R' T')

include h ht hl

theorem origin (htake : ∀ p, a = .take p → (s.pcb p).used = 0)
    (hadd : ∀ p, a = .add p → s.currentPCB = some c ∧ pend c = some p)
    (hq : InPlay (a.atomic s) R' q) (hp : a.pend c pend q = some p) : a = .take p ∧ q = c ∨
      InPlay s R q ∧ pend q = some p ∧ a ≠ .take p ∧ a ≠ .add p := by
  have hplay := hl.inPlay ht hq
  cases a with
  | take r =>
    have hq' : InPlay s R q := by
      rcases hplay with hplay | hplay
      · exact hplay
      · cases hplay
    by_cases hqc : q = c
    · rw [hqc, Act.pend, update_self] at hp
      exact .inl ⟨congrArg Act.take (some.inj hp), hqc⟩
    · rw [Act.pend, update_of_ne hqc] at hp
      refine .inr ⟨hq', hp, ?_, fun hc => by cases hc⟩
      intro hr
      have hone := h.used q p hq' hp
      rw [htake p hr] at hone
      exact absurd hone (by decide)
  | add r =>
    obtain ⟨hcur, hc⟩ := hadd r rfl
    by_cases hqr : q = r
    · rw [hqr, Act.pend, update_self] at hp
      cases hp
    by_cases hqc : q = c
    · rw [Act.pend, update_of_ne hqr, hqc, update_self] at hp
      cases hp
    rw [Act.pend, update_of_ne hqr, update_of_ne hqc] at hp
    have hq' : InPlay s R q := by
      rcases hplay with hplay | hplay
      · exact hplay
      · exact absurd (Act.add.inj hplay).symm hqr
    refine .inr ⟨hq', hp, fun hc => (by cases hc), ?_⟩
    intro hr
    rw [Act.add.inj hr] at hc
    exact hqc (h.inj q c p hq' (.inr (.inl hcur)) hp hc)
  | _ =>
    rcases hplay with hplay | hplay
    · exact .inr ⟨hplay, hp, fun hc => (by cases hc), fun hc => by cases hc⟩
    · cases hplay

/-- **Any function** keeps the blocks that are being filled in. -/
theorem act (htake : ∀ p, a = .take p → (s.pcb p).used = 0 ∧ Fresh s R T p)
    (hadd : ∀ p, a = .add p → s.currentPCB = some c ∧ pend c = some p) :
    Creating (a.atomic s) R' T' (a.pend c pend) := by
  have horigin : ∀ q p, InPlay (a.atomic s) R' q → a.pend c pend q = some p →
      a = .take p ∧ q = c ∨ InPlay s R q ∧ pend q = some p ∧ a ≠ .take p ∧ a ≠ .add p :=
    fun q p hq hp => h.origin ht hl (fun p hp => (htake p hp).1) hadd hq hp
  refine ⟨?_, ?_, ?_⟩
  · intro q p hq hp
    rcases horigin q p hq hp with ⟨ha, -⟩ | ⟨hq, hp, -, ha⟩
    · exact (htake p ha).2.act hl ht (by rw [ha]; exact fun hc => by cases hc)
    · exact (h.fresh q p hq hp).act hl ht ha
  · intro q p hq hp
    rcases horigin q p hq hp with ⟨rfl, -⟩ | ⟨hq, hp, ha, -⟩
    · show ((s.taken p).pcb p).used = 1
      rw [Sched.taken_pcb, if_pos rfl]
    · have hfresh := h.fresh q p hq hp
      rw [atomic_used hfresh.current ha, h.used q p hq hp]
      rintro - hhead
      refine hfresh.term ?_
      have hterm := ht.queues.term
      rw [hhead] at hterm
      obtain ⟨T₀, rfl⟩ := hterm.eq_cons_of_head
      exact mem_cons_self
  · intro q q' p hq hq' hp hp'
    rcases horigin q p hq hp with ⟨ha, hqc⟩ | ⟨hq, hp, ha, -⟩
    · rcases horigin q' p hq' hp' with ⟨-, hqc'⟩ | ⟨-, -, ha', -⟩
      · exact hqc.trans hqc'.symm
      · exact absurd ha ha'
    · rcases horigin q' p hq' hp' with ⟨ha', -⟩ | ⟨hq', hp', -, -⟩
      · exact absurd ha' ha
      · exact h.inj q q' p hq hq' hp hp'

end

end Creating

section

variable {s : Sched}

/-! ### Calls -/

/-- `BlockProcess` under a lock only notes that a task change is due. -/
theorem quiet_block_nested (m : Machine) (hc : s.currentPCB = some c) (r : State) (k : List Op) :
    QuietTo (m.closed s 1 1 false (blockProcess r ++ k))
      (m.closed (s.modify c fun b => { b with state := r }) 1 1 true k) := by
  set s1 := s.modify c fun b => { b with state := r } with hs1
  have hlock : QuietTo (m.closed s 1 1 false (blockProcess r ++ k))
      (m.closed s 2 2 false (.setState r :: .schedule :: unlock k)) :=
    quiet_step rfl (quiet_of_step rfl)
  have hset := quiet_of_step (step_setState m s
    (.schedule :: unlock k) hc r 2 2 false)
  have hnote : QuietTo (m.closed s1 2 2 false (.schedule :: unlock k))
      (m.closed s1 2 2 true (unlock k)) := quiet_of_step rfl
  have hunlock : QuietTo (m.closed s1 2 2 true (unlock k))
      (m.closed s1 1 1 true k) := quiet_step rfl (quiet_of_step rfl)
  exact ((hlock.trans hset).trans hnote).trans hunlock

/-- `UnblockProcess` under a lock. -/
theorem quiet_unblock_nested (m : Machine) (s : Sched) (q : PcbPtr) (k : List Op) :
    QuietTo (m.closed s 1 1 true (unblockProcess q ++ k)) (m.closed (s.addReady q) 1 1 true k) := by
  have hlock : QuietTo (m.closed s 1 1 true (unblockProcess q ++ k))
      (m.closed s 2 2 true (.addReady q :: unlock k)) :=
    quiet_step rfl (quiet_of_step rfl)
  have hadd := quiet_of_step (step_addReady m s (unlock k) q 2 2 true)
  have hunlock : QuietTo (m.closed (s.addReady q) 2 2 true (unlock k))
      (m.closed (s.addReady q) 1 1 true k) := quiet_step rfl (quiet_of_step rfl)
  exact (hlock.trans hadd).trans hunlock

theorem quiet_due (m : Machine) (s : Sched) (k : List Op) :
    QuietTo (m.closed s 1 1 true (unlockAndSchedule ++ k))
      (m.closed s 1 0 false (.schedule :: .unlockScheduler :: k)) :=
  quiet_of_step rfl

theorem quiet_terminate (m : Machine) (hc : s.currentPCB = some c) (k : List Op) :
    QuietTo (m.closed s 1 0 false (.postpone :: .addTerminated ::
        (blockProcess .terminated ++ (unblockProcess s.butler ++ (unlockAndSchedule ++ k)))))
      (m.closed (s.terminated c) 1 0 false (.schedule :: .unlockScheduler :: k)) := by
  have hc1 : (s.addTerminated c).currentPCB = some c := by
    rw [Sched.addTerminated_eq]
    exact hc
  refine quiet_step rfl
    (quiet_step (step_addTerminated m s _ hc 1 1 false) ?_)
  refine (quiet_block_nested m hc1 .terminated _).trans ?_
  exact (quiet_unblock_nested m _ s.butler _).trans (quiet_due m _ k)

theorem quiet_free (m : Machine) {t : PcbPtr} (ht : s.terminatedListHead = some t) (k : List Op) :
    QuietTo (m.closed s 1 0 false (.postpone :: .butlerTest :: k))
      (m.opened (s.freeTerminated t) 0 k) := by
  have htest : step (m.closed s 1 1 false (.butlerTest :: k)) =
      some (m.closed (s.freeTerminated t) 1 1 false (unlock k)) := by
    have ht' : (s.locked 1 1 false).terminatedListHead = some t := ht
    simp only [step, exec, Machine.closed, ht']
    rfl
  refine quiet_step rfl (quiet_step htest ?_)
  exact quiet_step rfl (quiet_unlock m _ k)

/-- A round of the butler that finds nothing to do, up to `Schedule`. -/
theorem quiet_pause (m : Machine) (hc : s.currentPCB = some c)
    (ht : s.terminatedListHead = none) (k : List Op) :
    QuietTo (m.closed s 1 0 false (.postpone :: .butlerTest :: k))
      (m.closed (s.paused c) 1 0 false (.schedule :: .unlockScheduler :: k)) := by
  have htest : step (m.closed s 1 1 false (.butlerTest :: k)) =
      some (m.closed s 1 1 false (blockProcess .paused ++ (unlockAndSchedule ++ k))) := by
    have ht' : (s.locked 1 1 false).terminatedListHead = none := ht
    simp only [step, exec, Machine.closed, ht']
    rfl
  refine quiet_step rfl (quiet_step htest ?_)
  exact (quiet_block_nested m hc .paused _).trans (quiet_due m _ k)

end

/-! ### Moves -/

/-- When the machine does `a`: a task is made ready by the one that filled in its block, and only
the butler makes rounds and does not terminate. -/
inductive Does (E : Setting) (m : Machine) (pend : PcbPtr → Option PcbPtr) : Act → Prop
  | skip : Does E m pend .skip
  | take {p : PcbPtr} : m.InTask → (m.sched.pcb p).used = 0 → Does E m pend (.take p)
  | fill {p : PcbPtr} : m.InTask → pend m.owner = some p → Does E m pend (.fill p)
  | add {p : PcbPtr} : m.InTask → pend m.owner = some p → Does E m pend (.add p)
  | tick : Does E m pend .tick
  | terminate : E.calls .terminate → m.InTask → m.owner ≠ m.sched.butler → Does E m pend .terminate
  | butler : E.calls .butler → m.InTask → m.owner = m.sched.butler → Does E m pend .butler

/-- The move that began with `m₁` comes to an end, with the effect of `a`. -/
def Completes (E : Setting) (m : Machine) (R : List PcbPtr) (pend : PcbPtr → Option PcbPtr)
    (a : Act) (m₁ : Machine) : Prop :=
  Does E m pend a ∧ ∃ m', Lands step IsOpen m₁ m' ∧
    Leaves E (a.atomic m.sched) (fun q => InPlay m.sched R q ∨ a = .add q) (a.pend m.owner pend) m'

variable {a : Act}

namespace Between

variable {E : Setting} {m m₁ : Machine} {loop : Bool} {R T : List PcbPtr}
  {pend : PcbPtr → Option PcbPtr} {o : Option PcbPtr}

section

variable (hb : Between E m R pend)

include hb

theorem parked_of_inPlay (hq : q = m.sched.butler ∨ InPlay m.sched R q) (hne : q ≠ m.owner) :
    ParkedAt E m.sched.butler m.saved (E.home m.sched.butler q) (m.saved q) (pend q) := by
  refine hb.parked q ?_ hne
  rcases hq with hq | hq | hq | hq
  · exact .inl hq
  · exact .inl hq
  · -- the current task is the one that runs
    cases hb.place with
    | runs hcur _ _ => exact absurd (some.inj (hq.symm.trans hcur)) hne
    | takes hcur _ _ _ _ => exact absurd (some.inj (hq.symm.trans hcur)) hne
    | idles hcur _ _ _ _ | halts hcur _ _ _ _ => cases hcur.symm.trans hq
  · exact .inr hq

theorem parked_of_skip (ha : ∀ p, a ≠ .add p)
    (hq : q = m.sched.butler ∨ InPlay m.sched R q ∨ a = .add q) (hne : q ≠ m.owner) :
    ParkedAt E m.sched.butler m.saved (E.home m.sched.butler q) (m.saved q) (pend q) := by
  refine hb.parked_of_inPlay ?_ hne
  rcases hq with hq | hq | hq
  · exact .inl hq
  · exact .inr hq
  · exact absurd hq (ha q)

theorem opened_self (hirq : m.sched.irqDisableCounter = 0) : m.opened m.sched 0 m.code = m := by
  have hopen := Machine.opened_self (show IsOpen m from hb.interrupts) hb.postpone hb.flag
  rwa [hirq] at hopen

theorem skip (hcur : m.InTask) {k : List Op}
    (hk : Code E m.sched.butler m.saved (E.home m.sched.butler m.owner) k (pend m.owner)) :
    Completes E m R pend .skip (m.opened m.sched 0 k) :=
  ⟨.skip, _, Lands.here rfl, leaves_opened hcur hk fun _ hq hne =>
    hb.parked_of_skip (fun _ hc => by cases hc) hq hne⟩

/-- **A call** is made in a task's own code. -/
theorem call {c : Call} (hc : E.calls c)
    (hs : (Move.call c).start m = some m₁) : Completes E m R pend .skip m₁ := by
  -- in any other code no call is allowed
  have hhome : ∃ op, m.code = [op] ∧ op = E.home m.sched.butler m.owner ∧
      c.allowed op = true ∧ m.InTask ∧
      m.sched.irqDisableCounter = 0 ∧ pend m.owner = none := by
    cases hcode : m.code with
    | nil => simp [Move.start, hcode] at hs
    | cons op k =>
      simp only [Move.start, hcode] at hs
      split at hs
      · next hallowed =>
        cases hb.place with
        | runs hcur hirq hk =>
          rw [hcode] at hk
          generalize pend m.owner = o at hk ⊢
          cases hk with
          | home => exact ⟨_, rfl, rfl, hallowed, hcur, hirq, rfl⟩
          | _ => cases c <;> cases hallowed
        | takes _ _ hk _ _ =>
          rw [hcode] at hk
          cases hk
          cases c <;> cases hallowed
        | idles _ _ _ hk _ | halts _ _ _ hk _ =>
          rw [hcode] at hk
          cases hk
          cases c <;> cases hallowed
      · cases hs
  obtain ⟨op, hcode, hop, hallowed, hcur, hirq, hpend⟩ := hhome
  have hm1 : m₁ = m.opened m.sched 0 (c.body m.sched ++ [op]) := by
    simp only [Move.start, hcode, hallowed] at hs
    rw [← some.inj hs, Machine.call, hcode]
    conv_lhs => rw [← hb.opened_self hirq]
    rfl
  rw [hm1]
  refine hb.skip hcur ?_
  rw [← hop, hpend]
  rcases E.basic c hc with rfl | rfl | rfl
  · exact .test 0
  · refine .terminate hc ?_
    cases op <;> first | rfl | cases hallowed
  · refine .butler hc ?_
    cases op <;> first | rfl | cases hallowed

/-- **The loop of `PcbAlloc`.** -/
theorem test (hcur : m.InTask) (hpend : pend m.owner = none) {i : ℕ}
    (hs : step (m.opened m.sched 0 [.pcbTest i, E.home m.sched.butler m.owner]) = some m₁) :
    Completes E m R pend .skip m₁ := by
  set op := E.home m.sched.butler m.owner with hop
  by_cases hi : i < 256
  · by_cases hused : (m.sched.pcb ⟨i, hi⟩).used = 0
    · -- the block is free, and taken next
      have hfree : step (m.opened m.sched 0 [.pcbTest i, op]) =
          some (m.opened m.sched 0 [.pcbTake ⟨i, hi⟩, op]) := (dif_pos hi).trans (if_pos hused)
      cases hfree.symm.trans hs
      refine ⟨.skip, _, Lands.here rfl, ⟨0, rfl⟩, fun R' hR' => ⟨rfl, rfl, rfl, ?_, ?_⟩⟩
      · intro q hq hne
        exact hb.parked_of_skip (fun _ hc => by cases hc) (hq.imp id (hR' q)) hne
      · exact .takes hcur rfl rfl hused hpend
    · have hnext : step (m.opened m.sched 0 [.pcbTest i, op]) =
          some (m.opened m.sched 0 [.pcbTest (i + 1), op]) := (dif_pos hi).trans (if_neg hused)
      cases hnext.symm.trans hs
      exact hb.skip hcur (by rw [hpend]; exact .test (i + 1))
  · have hend : step (m.opened m.sched 0 [.pcbTest i, op]) = some (m.opened m.sched 0 [op]) :=
      dif_neg hi
    cases hend.symm.trans hs
    exact hb.skip hcur (by rw [hpend]; exact .home)

/-- **`PcbAlloc` takes a block.** -/
theorem take (hcur : m.InTask) (hused : (m.sched.pcb p).used = 0)
    (hs : step (m.opened m.sched 0 [.pcbTake p, E.home m.sched.butler m.owner]) = some m₁) :
    Completes E m R pend (.take p) m₁ := by
  set op := E.home m.sched.butler m.owner with hop
  have htake : step (m.opened m.sched 0 [.pcbTake p, op]) =
      some (m.opened (m.sched.taken p) 0 [.initPcb p, op]) := rfl
  cases htake.symm.trans hs
  refine ⟨.take hcur hused, _, Lands.here rfl, leaves_opened hcur ?_ ?_⟩
  · rw [Act.pend, update_self]
    exact .fill p
  · intro q hq hne
    rw [Act.pend, update_of_ne hne]
    exact hb.parked_of_skip (fun _ hc => by cases hc) hq hne

section

variable (hcr : Creating m.sched R T pend) (hcur : m.InTask) (hpend : pend m.owner = some p)

include hcr hcur hpend

/-- **`CreateProcess` fills in the block.** Nobody else does, and it has no stack yet. -/
theorem fill
    (hs : step (m.opened m.sched 0 [.initPcb p, E.home m.sched.butler m.owner]) = some m₁) :
    Completes E m R pend (.fill p) m₁ := by
  set op := E.home m.sched.butler m.owner with hop
  set saved := update m.saved p newStack with hsaved
  set m2 : Machine := { m with saved := saved } with hm2
  have hinit : step (m.opened m.sched 0 [.initPcb p, op]) =
      some (m2.opened (m.sched.filled p) 0 (unblockProcess p ++ [op])) := rfl
  cases hinit.symm.trans hs
  have howner : InPlay m.sched R m.owner := .inr (.inl hcur)
  have hfresh := hcr.fresh m.owner p howner hpend
  refine ⟨.fill hcur hpend, _, Lands.here rfl, leaves_opened hcur ?_ ?_⟩
  · show Code E m.sched.butler saved op _ (pend m.owner)
    rw [hpend]
    exact .add (update_self ..)
  · intro q hq hne
    have hplay : InPlay m.sched R q := by
      rcases hq with hq | hq | hq
      · exact .inl hq
      · exact hq
      · cases hq
    have hqp : q ≠ p := by
      rintro rfl
      exact hfresh.off hplay
    show ParkedAt E m.sched.butler saved (E.home m.sched.butler q) (saved q) (pend q)
    rw [hsaved, update_of_ne hqp, ← hsaved]
    refine (hb.parked_of_inPlay (.inr hplay) hne).mono ?_
    intro r hr
    rw [hsaved, update_of_ne]
    rintro rfl
    exact hne (hcr.inj q m.owner r hplay howner hr hpend)

/-- **`CreateProcess` makes the new task ready.** -/
theorem add (hnew : m.saved p = newStack)
    (hs : step (m.opened m.sched 0 (unblockProcess p ++ [E.home m.sched.butler m.owner])) =
      some m₁) : Completes E m R pend (.add p) m₁ := by
  set s := m.sched with hsched
  set op := E.home s.butler m.owner with hop
  have hlock : step (m.opened s 0 (unblockProcess p ++ [op])) =
      some (m.closed s 1 0 false (.postpone :: .addReady p :: unlock [op])) := rfl
  cases hlock.symm.trans hs
  have hfresh := hcr.fresh m.owner p (.inr (.inl hcur)) hpend
  have hne : m.owner ≠ p := fun hc => hfresh.current (hc ▸ hcur)
  have hbutler : (s.addReady p).butler = s.butler := by rw [Sched.addReady_eq]
  refine ⟨.add hcur hpend, _, (quiet_add m s [op] p).lands (Lands.here rfl), ?_⟩
  refine leaves_opened (s := s.addReady p) (by rw [Sched.addReady_eq]; exact hcur) ?_ ?_
  · rw [hbutler, Act.pend, update_of_ne hne, update_self]
    exact .home
  · intro q hq hqo
    rw [hbutler] at hq ⊢
    by_cases hqp : q = p
    · have hhome : E.home s.butler p = .user := if_neg fun hc => hfresh.off (.inl hc)
      rw [hqp, hhome, hnew, Act.pend, update_self]
      exact .new rfl
    · rw [Act.pend, update_of_ne hqp, update_of_ne hqo]
      refine hb.parked_of_inPlay ?_ hqo
      rcases hq with hq | hq | hq
      · exact .inl hq
      · exact .inr hq
      · exact absurd (Act.add.inj hq).symm hqp

end

end

theorem pend_ne_owner (hcr : Creating m.sched R T pend) (hcur : m.InTask)
    (hq : q = m.sched.butler ∨ q = m.owner ∨ q ∈ R) : pend q ≠ some m.owner := by
  have hplay : InPlay m.sched R q := by
    rcases hq with hq | hq | hq
    · exact .inl hq
    · exact .inr (.inl (hq ▸ hcur))
    · exact .inr (.inr hq)
  exact fun hp => (hcr.fresh q m.owner hplay hp).current hcur

theorem inPlay_cases (hcur : m.InTask) (ha : ∀ p, a ≠ .add p)
    (hq : InPlay m.sched R q ∨ a = .add q) : q = m.sched.butler ∨ q = m.owner ∨ q ∈ R := by
  rcases hq with (hq | hq | hq) | hq
  · exact .inl hq
  · exact .inr (.inl (some.inj (hq.symm.trans hcur)))
  · exact .inr (.inr hq)
  · exact absurd hq (ha q)

section

variable (hb : Between E m R pend) (ht : Tasks m.sched loop R T) (hcr : Creating m.sched R T pend)

include hb ht hcr

/-- **`TerminateProcess`**, called by a task that is not the butler. -/
theorem terminate (hcalls : E.calls .terminate) (hcur : m.sched.currentPCB = some m.owner)
    (hpend : pend m.owner = none) (hne : m.owner ≠ m.sched.butler)
    (hs : step (m.opened m.sched 0 (terminateProcess m.sched.butler ++
      [E.home m.sched.butler m.owner])) = some m₁) :
    Completes E m R pend .terminate m₁ := by
  set s := m.sched with hsched
  set op := E.home s.butler m.owner with hop
  have hlock : step (m.opened s 0 (terminateProcess s.butler ++ [op])) =
      some (m.closed s 1 0 false (.postpone :: .addTerminated :: (blockProcess .terminated ++
        (unblockProcess s.butler ++ (unlockAndSchedule ++ [op]))))) := rfl
  cases hlock.symm.trans hs
  have hatomic : s.terminate = (s.terminated m.owner).dispatch := by
    simp [Sched.terminate, hcur]
  obtain ⟨hqueues, hcur', -⟩ := ht.terminated hcur hne
  obtain ⟨hbutler, -, -⟩ := terminated_eq s m.owner
  -- the butler is ready now, if nobody else is
  have hhead : ∀ n, (s.terminated m.owner).readyListHead = some n →
      n = (s.terminated m.owner).butler ∨ n ∈ R := by
    intro n hn
    rw [hbutler]
    rcases mem_append.mp (hqueues.ready.mem_head hn) with hn | hn
    · exact .inr (mem_of_mem_ahead hn)
    · exact .inl (mem_singleton.mp hn)
  have hsome : (s.terminated m.owner).readyListHead ≠ none := by
    intro hnone
    cases hahead : ahead R s.butler ++ [s.butler] with
    | nil => simp at hahead
    | cons r l =>
      rw [hahead] at hqueues
      exact absurd (hqueues.ready.head_eq.symm.trans hnone) (by simp)
  have hparked : ∀ q, q = (s.terminated m.owner).butler ∨ q ∈ R → q ≠ m.owner →
      ParkedAt E (s.terminated m.owner).butler m.saved (E.home (s.terminated m.owner).butler q)
        (m.saved q) (pend q) := by
    rw [hbutler]
    exact hb.parked
  obtain ⟨m', hland, hleaves⟩ := lands_dispatch
    (S := fun q => InPlay s R q ∨ Act.terminate = .add q) hcur'
    (by rw [hbutler]; exact fun q hq => inPlay_cases hcur (fun _ hc => by cases hc) hq) hhead
    hparked (by rw [hbutler, hpend]; exact .home)
    (by rw [hbutler]; exact fun q hq => pend_ne_owner hcr hcur hq)
    fun hnone => absurd hnone hsome
  refine ⟨.terminate hcalls hcur hne, m', (quiet_terminate m hcur [op]).lands hland, ?_⟩
  show Leaves E s.terminate _ pend m'
  rw [hatomic]
  exact hleaves

/-- **A round of the butler.** -/
theorem butler (hcalls : E.calls .butler) (hcur : m.sched.currentPCB = some m.owner)
    (hpend : pend m.owner = none) (hhome : E.home m.sched.butler m.owner = .butlerLoop)
    (hs : step (m.opened m.sched 0 (butlerRound ++ [E.home m.sched.butler m.owner])) = some m₁) :
    Completes E m R pend .butler m₁ := by
  set s := m.sched with hsched
  set op := E.home s.butler m.owner with hop
  have hlock : step (m.opened s 0 (butlerRound ++ [op])) =
      some (m.closed s 1 0 false (.postpone :: .butlerTest :: [op])) := rfl
  cases hlock.symm.trans hs
  have hskip : ∀ p, Act.butler ≠ .add p := fun _ hc => by cases hc
  -- only the butler makes rounds
  have howner : m.owner = s.butler ∧ op = E.first := by
    rw [hop, Setting.home] at hhome ⊢
    split at hhome
    · next ho => exact ⟨ho, if_pos ho⟩
    · cases hhome
  refine ⟨.butler hcalls hcur howner.1, ?_⟩
  cases hterm : s.terminatedListHead with
  | some t =>
    have hatomic : s.butlerRound = s.freeTerminated t := by simp [Sched.butlerRound, hterm]
    refine ⟨_, (quiet_free m hterm [op]).lands (Lands.here rfl), ?_⟩
    show Leaves E s.butlerRound _ pend _
    rw [hatomic]
    refine leaves_opened hcur (by rw [hpend]; exact .home) ?_
    exact fun q hq hne => hb.parked_of_skip hskip hq hne
  | none =>
    have hatomic : s.butlerRound = (s.paused m.owner).dispatch := by
      simp [Sched.butlerRound, hterm, hcur]
    have hq : Queues (s.paused m.owner) loop R T := ht.queues.modify m.owner fun _ => rfl
    obtain ⟨m', hland, hleaves⟩ := lands_dispatch (s := s.paused m.owner)
      (k := [op]) hcur
      (fun q hq => inPlay_cases hcur hskip hq) (fun _ hn => .inr (hq.ready.mem_head hn))
      hb.parked (by rw [hpend]; exact .home) (fun q hq => pend_ne_owner hcr hcur hq)
      fun _ _ => ⟨howner.1, by rw [howner.2], hpend⟩
    refine ⟨m', (quiet_pause m hcur hterm [op]).lands hland, ?_⟩
    show Leaves E s.butlerRound _ pend m'
    rw [hatomic]
    exact hleaves

end

theorem step_home (E : Setting) (m : Machine) (s : Sched) (i : ℤ) (b q : PcbPtr) :
    step (m.opened s i [E.home b q]) = none := by
  unfold Setting.home
  split
  · rcases E.waits with hw | hw
    · rw [hw]
      rfl
    · rw [hw]
      rfl
  · rfl

/-- **The next statement.** -/
theorem go (hb : Between E m R pend) (ht : Tasks m.sched loop R T) (hcr : Creating m.sched R T pend)
    (hs : step m = some m₁) : Completes E m R pend (Move.go.act m) m₁ := by
  cases hb.place with
  | runs hcur hirq hk =>
    have hs' : step (m.opened m.sched 0 m.code) = some m₁ := by
      rw [hb.opened_self hirq]
      exact hs
    generalize hcode : m.code = k at hk hs'
    generalize hpend : pend m.owner = o at hk
    cases hk with
    | home =>
      rw [step_home] at hs'
      cases hs'
    | test i =>
      rw [Move.act, hcode]
      exact hb.test hcur hpend hs'
    | fill p =>
      rw [Move.act, hcode]
      exact hb.fill hcr hcur hpend hs'
    | add hnew =>
      rw [Move.act, hcode]
      exact hb.add hcr hcur hpend hnew hs'
    | terminate hcalls hhome =>
      have hne : m.owner ≠ m.sched.butler := by
        intro ho
        rw [Setting.home, if_pos ho, E.terminate hcalls] at hhome
        cases hhome
      rw [Move.act, hcode]
      exact hb.terminate ht hcr hcalls hcur hpend hne hs'
    | butler hcalls hhome =>
      rw [Move.act, hcode]
      exact hb.butler ht hcr hcalls hcur hpend hhome hs'
    | @iret k _ hk =>
      have hret : step (m.opened m.sched 0 (.iret :: k)) = some (m.opened m.sched 0 k) := rfl
      cases hret.symm.trans hs'
      rw [Move.act, hcode]
      exact hb.skip hcur (by rw [hpend]; exact hk)
  | takes hcur hirq hcode hused _ =>
    have hs' : step (m.opened m.sched 0 m.code) = some m₁ := by
      rw [hb.opened_self hirq]
      exact hs
    rw [hcode] at hs'
    rw [Move.act, hcode]
    exact hb.take hcur hused hs'
  | idles hcur hirq howner hcode hpend =>
    -- nothing is ready in the idle loop
    have hnone : m.sched.readyListHead = none := by
      rcases ht.place with ⟨c, hc, -⟩ | ⟨-, hR, -⟩
      · cases hcur.symm.trans hc
      · have hready := ht.queues.ready
        rw [hR] at hready
        exact hready.head_nil
    have hopen := Machine.opened_self (show IsOpen m from hb.interrupts) hb.postpone hb.flag
    have hcheck :=
      step_idleCheck_none m m.sched [.returned, .unlockScheduler, E.first] m.owner hnone
    rw [hirq, hcode] at hopen
    rw [hopen] at hcheck
    cases hcheck.symm.trans hs
    rw [Move.act, hcode]
    refine ⟨.skip, _, Lands.here rfl, ⟨1, rfl⟩, fun R' hR' => ⟨rfl, rfl, rfl, ?_, ?_⟩⟩
    · intro q hq hne
      exact hb.parked_of_skip (fun _ hc => by cases hc) (hq.imp id (hR' q)) hne
    · exact .halts hcur rfl howner rfl hpend
  | halts hcur hirq howner hcode hpend =>
    rw [step, hcode] at hs
    cases hs

/-- Nobody sleeps, so that the loop of `IrqTimerHandler` ends at once. -/
theorem quiet_handler (ht : Tasks m.sched loop R T) (b : ℤ) (k : List Op) :
    QuietTo (m.closed m.sched b 0 false (timerHandler ++ k))
      (m.closed m.sched.ticked (b + 1) 1 false (.quantum :: unlock (.iret :: k))) := by
  have htick := quiet_tick m m.sched k b
  rw [ht.queues.sleep] at htick
  exact htick.trans (quiet_of_step rfl)

section

variable (hb : Between E m R pend) (ht : Tasks m.sched loop R T)

include hb ht

/-- **A timer interrupt** in a task. -/
theorem interrupt_runs (hcr : Creating m.sched R T pend) (hcur : m.sched.currentPCB = some m.owner)
    (hirq : m.sched.irqDisableCounter = 0)
    (hk : Code E m.sched.butler m.saved (E.home m.sched.butler m.owner) m.code (pend m.owner)) :
    Completes E m R pend .tick m.interrupt := by
  set s := m.sched with hsched
  have hskip : ∀ p, Act.tick ≠ .add p := fun _ hc => by cases hc
  have hhandler := quiet_handler ht 0 m.code
  refine ⟨.tick, ?_⟩
  rw [interrupt_eq hirq hb.postpone hb.flag (.inr ⟨rfl, hk.head_ne_hlt⟩)]
  by_cases hq : ((s.ticked.spent m.owner).pcb m.owner).quantumLeft ≤ 0
  · have hatomic : s.tick = (s.ticked.spent m.owner).dispatch := by
      simp [Sched.tick, hcur, hq]
    obtain ⟨hqueues, hruns⟩ := ht.spent hcur
    obtain ⟨m', hland, hleaves⟩ := lands_dispatch (s := s.ticked.spent m.owner)
      hcur
      (fun q hq => inPlay_cases hcur hskip hq) (fun _ hn => .inr (hqueues.ready.mem_head hn))
      hb.parked (.iret hk) (fun q hq => pend_ne_owner hcr hcur hq)
      fun _ hst => absurd hruns.state hst
    refine ⟨m', (hhandler.trans (quiet_quantum m s.ticked (.iret :: m.code) hcur hq)).lands hland,
      ?_⟩
    show Leaves E s.tick _ pend m'
    rw [hatomic]
    exact hleaves
  · have hatomic : s.tick = s.ticked.spent m.owner := by
      simp [Sched.tick, hcur, hq]
    refine ⟨_, (hhandler.trans (quiet_quantum_left m s.ticked (.iret :: m.code) hcur hq)).lands
      (Lands.here rfl), ?_⟩
    show Leaves E s.tick _ pend _
    rw [hatomic]
    refine leaves_opened hcur (.iret hk) ?_
    exact fun q hq hne => hb.parked_of_skip hskip hq hne

/-- **A timer interrupt** in the idle loop, which goes on. -/
theorem interrupt_idle (hcur : m.sched.currentPCB = none) (hirq : m.sched.irqDisableCounter = 1)
    (howner : m.owner = m.sched.butler) (hpend : pend m.owner = none)
    (hcode : m.code = .hlt :: E.idle m.owner ∨ m.code = E.idle m.owner) :
    Completes E m R pend .tick m.interrupt := by
  set k := E.idle m.owner with hk
  have hatomic : m.sched.tick = m.sched.ticked := by simp [Sched.tick, hcur]
  have hcode' : m.code = .hlt :: k ∨ m.code = k ∧ k.head? ≠ some .hlt :=
    hcode.imp id fun hc => ⟨hc, by rw [hk]; simp⟩
  rw [interrupt_eq hirq hb.postpone hb.flag hcode']
  refine ⟨.tick, m.opened m.sched.ticked 1 k,
    ((quiet_handler ht 1 k).trans (quiet_quantum_idle m m.sched.ticked k hcur)).lands
      (Lands.here rfl), ?_⟩
  show Leaves E m.sched.tick _ pend _
  rw [hatomic]
  refine ⟨⟨1, rfl⟩, fun R' hR' => ⟨rfl, rfl, rfl, ?_, .idles hcur rfl howner rfl hpend⟩⟩
  intro q hq hne
  exact hb.parked_of_skip (fun _ hc => by cases hc) (hq.imp id (hR' q)) hne

/-- **Any move comes to an end**, with the effect of its function, outside of `PcbAlloc`. -/
theorem move (hcr : Creating m.sched R T pend) (hcalls : ∀ c, v = .call c → E.calls c)
    (htake : v = .interrupt → ∀ p k, m.code ≠ .pcbTake p :: k) (hs : v.start m = some m₁) :
    Completes E m R pend (v.act m) m₁ := by
  cases v with
  | call c => exact hb.call (hcalls c rfl) hs
  | go => exact hb.go ht hcr hs
  | interrupt =>
    have hstart : m₁ = m.interrupt := by
      simp only [Move.start, hb.interrupts] at hs
      exact (some.inj hs).symm
    rw [hstart]
    cases hb.place with
    | runs hcur hirq hk => exact hb.interrupt_runs ht hcr hcur hirq hk
    | takes _ _ hcode _ _ => exact absurd hcode (htake rfl _ _)
    | idles hcur hirq howner hcode hpend =>
      exact hb.interrupt_idle ht hcur hirq howner hpend (.inr hcode)
    | halts hcur hirq howner hcode hpend =>
      exact hb.interrupt_idle ht hcur hirq howner hpend (.inl hcode)

end

end Between

/-! ### Steps of a run -/

/-- The machine between two moves. -/
structure Rests (E : Setting) (m : Machine) (loop : Bool) (R T : List PcbPtr)
    (pend : PcbPtr → Option PcbPtr) : Prop where
  between : Between E m R pend
  tasks : Tasks m.sched loop R T
  creating : Creating m.sched R T pend

section

variable {E : Setting} {m m₁ m' : Machine} {loop : Bool} {R T : List PcbPtr}
  {pend : PcbPtr → Option PcbPtr}

theorem Does.allowed (hd : Does E m pend a) (hcr : Creating m.sched R T pend) :
    Allowed m.sched R T a := by
  refine ⟨?_, ?_, ?_⟩
  · rintro p rfl
    cases hd with
    | add hcur hpend =>
      rw [hcur]
      exact ⟨some_ne_none _, hcr.fresh m.owner p (.inr (.inl hcur)) hpend⟩
  · rintro rfl
    cases hd with
    | terminate _ hcur hne =>
      rw [hcur]
      exact ⟨some_ne_none _, fun hc => hne (some.inj hc)⟩
  · rintro rfl
    cases hd with
    | butler _ hcur ho => rw [hcur, ho]

theorem Tasks.locked (ht : Tasks s loop R T) (i : ℤ) : Tasks (s.locked i 0 false) loop R T := by
  refine ⟨⟨ht.queues.ready, ht.queues.hook, ht.queues.sleep, ht.queues.term, ht.queues.disjoint,
    ht.queues.butler⟩, ?_⟩
  rcases ht.place with ⟨c, hc, hruns⟩ | hidle
  · exact .inl ⟨c, hc, hruns.state, hruns.notTerm, hruns.off⟩
  · exact .inr hidle

section

variable (hr : Rests E m loop R T pend) (hcalls : ∀ c, v = .call c → E.calls c)
  (htake : v = .interrupt → ∀ p k, m.code ≠ .pcbTake p :: k)

include hr hcalls htake

theorem Rests.does (hs : v.start m = some m₁) : Does E m pend (v.act m) :=
  (hr.between.move hr.tasks hr.creating hcalls htake hs).1

/-- **One move of a run**, outside of `PcbAlloc`. -/
theorem Rests.move
    (hfresh : ∀ p, v.act m = .take p → (m.sched.pcb p).used = 0 → Fresh m.sched R T p)
    (hs : v.start m = some m₁) (hland : Lands step IsOpen m₁ m') :
    ∃ i loop' R' T', m'.sched = ((v.act m).atomic m.sched).locked i 0 false ∧
      ListStep m.sched loop R T (v.act m) loop' R' T' ∧
      Rests E m' loop' R' T' ((v.act m).pend m.owner pend) := by
  obtain ⟨hdoes, m'', hland', ⟨i, hi⟩, hbetween⟩ :=
    hr.between.move hr.tasks hr.creating hcalls htake hs
  obtain rfl := hland.unique hland'
  obtain ⟨loop', R', T', hlist, htasks⟩ := hr.tasks.act (hdoes.allowed hr.creating)
  have hcreating := hr.creating.act (c := m.owner) hr.tasks hlist ?_ ?_
  · refine ⟨i, loop', R', T', hi, hlist, hbetween R' fun q hq => hlist.mem_ready hq, ?_, ?_⟩
    · rw [hi]
      exact htasks.locked i
    · rw [hi]
      exact ⟨fun q p hq hp => ⟨(hcreating.fresh q p hq hp).off, (hcreating.fresh q p hq hp).term⟩,
        hcreating.used, hcreating.inj⟩
  · intro p hp
    have hused : (m.sched.pcb p).used = 0 := by
      rw [hp] at hdoes
      cases hdoes with
      | take _ hused => exact hused
    exact ⟨hused, hfresh p hp hused⟩
  · intro p hp
    rw [hp] at hdoes
    cases hdoes with
    | add hcur hpend => exact ⟨hcur, hpend⟩

end

/-! ### The start -/

/-- The machine after `InitScheduler`, with the first task at `h`. -/
structure Boot (h : Op) (m : Machine) : Prop where
  sched : ∃ s : Sched, m.sched = s.initScheduler ∧ ∀ q, s.pcb q = ⟨none, .running, 0, 0, 0⟩
  irq : m.sched.irqDisableCounter = 0
  postpone : m.sched.postponeTaskCounter = 0
  flag : m.sched.taskChangePostponedFlag = false
  interrupts : m.interrupts = true
  owner : m.owner = 0
  code : m.code = [h]

theorem Boot.rests (hb : Boot E.first m) : Rests E m false [] [] fun _ => none := by
  obtain ⟨s0, hs, -⟩ := hb.sched
  have hbutler : m.sched.butler = 0 := by rw [hs]; rfl
  have hcur : m.sched.currentPCB = some 0 := by rw [hs]; rfl
  refine ⟨⟨hb.interrupts, hb.postpone, hb.flag, ?_, .runs ?_ hb.irq ?_⟩,
    ⟨?_, .inl ⟨0, hcur, ?_⟩⟩, ⟨?_, ?_, ?_⟩⟩
  · rintro q (hq | hq) hne
    · exact absurd (hq.trans (hbutler.trans hb.owner.symm)) hne
    · cases hq
  · rw [Machine.InTask, hb.owner, hcur]
  · rw [hb.code, Setting.home, if_pos (hb.owner.trans hbutler.symm)]
    exact .home
  · rw [hs]
    exact ⟨(queue_nil.mpr ⟨rfl, rfl⟩).rho, Bool.noConfusion, rfl, queue_nil.mpr ⟨rfl, rfl⟩,
      fun _ _ => not_mem_nil, not_mem_nil⟩
  · rw [hs]
    exact ⟨rfl, not_mem_nil, fun _ => ⟨not_mem_nil, rfl⟩⟩
  · intro q p _ hp
    cases hp
  · intro q p _ hp
    cases hp
  · intro q q' p _ _ hp
    cases hp

end

end AthenX.Scheduler
