import AthenX.Scheduler.Wakeup

/-!
# How long a task sleeps

`Sleep` of `scheduler.h` is `SleepUntil` with the counter added. An interrupt raises the counter
twice, in `timer_handler` and in `IrqTimerHandler`, so a task is woken after half of the interrupts
it asked for. A sum that wraps around is less than the counter, and `SleepUntil` returns at once. A
sum that is the largest number is never met by an even counter.

The runs are those of `AthenX.Scheduler.Wakeup`, with calls of `SleepUntil`.
-/

namespace AthenX.Scheduler

open Linked Settling UInt32

/-! ### The call and the runs -/

/-- `Sleep`. -/
def sleep (s : Sched) (millis : UInt32) : Call := .sleep (millis + s.counter)

/-- Task `t` calls `Sleep`, and no interrupt comes before `m₁`, where it has blocked or is back. -/
structure Slept (m₀ : Machine) (t : PcbPtr) (millis : UInt32) (m₁ : Machine) : Prop where
  code : m₀.code = [.user]
  current : m₀.sched.currentPCB = some t
  run : Relation.ReflTransGen (fun a b => step a = some b) (m₀.call (sleep m₀.sched millis)) m₁
  isOpen : IsOpen m₁
  ended : m₁.sched.currentPCB = some t → m₁.code = m₀.code

/-- A task calls `SleepUntil`, or a timer interrupt is taken and counted. -/
inductive TallyEnv : Machine × ℕ → Machine × ℕ → Prop
  | sleep {m : Machine} {n : ℕ} {w : UInt32} {k : List Op} : m.code = .user :: k →
      TallyEnv (m, n) (m.call (.sleep w), n)
  | interrupt {m : Machine} {n : ℕ} : m.interrupts = true → ¬m.Dozes →
      TallyEnv (m, n) (m.interrupt, n + 1)

/-- The runs from `m₁` to `m` with `n` interrupts. -/
def After (m₁ : Machine) (n : ℕ) (m : Machine) : Prop :=
  Relation.ReflTransGen (fun a b => tally step a = some b ∨ TallyEnv a b) (m₁, 0) (m, n)

/-- The task is put on the ready list, and perhaps taken from it to run. -/
def PutsOnReadyList (t : PcbPtr) (m m' : Machine) : Prop :=
  ¬m.sched.OnReadyList t ∧
    (m'.sched.OnReadyList t ∨ m'.sched.currentPCB = some t ∧ m.sched.currentPCB ≠ some t)

/-- **A task that calls `Sleep(millis)` when the counter is `c`** is not made ready by the timer
before `millis` further interrupts. -/
def SleepsThrough (c millis : UInt32) : Prop :=
  ∀ (T : List PcbPtr) (m₀ : Machine) (t : PcbPtr) (m₁ : Machine), Sleepers T m₀ → IsOpen m₀ →
    m₀.sched.counter = c → Slept m₀ t millis m₁ →
    ∀ (n : ℕ) (m m' : Machine), After m₁ n m → IsOpen m → ¬m.Dozes →
      Lands step IsOpen m.interrupt m' → PutsOnReadyList t m m' → millis.toNat ≤ n + 1

/-! ### A task that waits -/

/-- The task has blocked and sleeps until `w`, and the counter is `c`. -/
structure Waits (t : PcbPtr) (w c : UInt32) (m : Machine) : Prop where
  state : (m.sched.pcb t).state = .sleeping
  sleepUntil : (m.sched.pcb t).sleepUntil = w
  current : m.sched.currentPCB ≠ some t
  counter : m.sched.counter = c

/-- The counter after `n` interrupts. -/
def counterAfter (c : UInt32) : ℕ → UInt32
  | 0     => c
  | n + 1 => counterAfter c n + 1 + 1

theorem toNat_counterAfter (c : UInt32) (n : ℕ) :
    (counterAfter c n).toNat = (c.toNat + 2 * n) % 2 ^ 32 := by
  induction n with
  | zero =>
    have hlt := c.toNat_lt
    rw [counterAfter, Nat.add_zero, Nat.mod_eq_of_lt hlt]
  | succ n ih =>
    rw [counterAfter, UInt32.toNat_add, UInt32.toNat_add, UInt32.toNat_one]
    omega

section

variable {T : List PcbPtr} {t : PcbPtr} {w c millis : UInt32} {m m₀ m₁ m' : Machine} {n : ℕ}

theorem Waits.undisturbed (h : Waits t w c m) (hm : Undisturbed m.sched T m') : Waits t w c m' := by
  obtain ⟨hst, hw, hcur⟩ := hm.asleep t h.state
  exact ⟨hst, hw.trans h.sleepUntil, hcur, hm.counter.trans h.counter⟩

theorem Waits.ticked (h : Waits t w c m) (hm : Ticked m.sched T m') (hw : ¬w ≤ c + 1 + 1) :
    Waits t w (c + 1 + 1) m' := by
  have hdue : m.sched.ticked.due t = false := by
    refine decide_eq_false ?_
    show ¬(m.sched.pcb t).sleepUntil ≤ m.sched.counter + 1 + 1
    rwa [h.sleepUntil, h.counter]
  obtain ⟨hst, huntil⟩ := hm.asleep t h.state hdue
  refine ⟨hst, huntil.trans h.sleepUntil, fun hc => hm.calm ⟨t, hc, hst⟩, ?_⟩
  rw [hm.counter, h.counter]

theorem Sleepers.not_onReadyList (h : Sleepers T m) (hst : (m.sched.pcb t).state = .sleeping) :
    ¬m.sched.OnReadyList t := by
  obtain ⟨R, L, hasleep, -⟩ := h
  rintro ⟨R', hR', hmem⟩
  rw [← hasleep.lists.ready.chain.unique hR'.chain] at hmem
  exact hasleep.lists.ready_notMem_sleep t hmem (hasleep.asleep t hst)

/-! ### Runs with interrupts -/

/-- **As long as its time has not come, the task waits.** -/
theorem Waits.after (hs : Sleepers T m₁) (ho1 : IsOpen m₁) (hw : Waits t w c m₁)
    (h : After m₁ n m) (ho : IsOpen m) :
    Sleepers T m ∧
      ((∀ i < n, ¬w ≤ counterAfter c (i + 1)) → Waits t w (counterAfter c n) m) := by
  have hinv : Settles (tally step) (fun p => IsOpen p.1) (fun p => Sleepers T p.1 ∧
      ((∀ i < p.2, ¬w ≤ counterAfter c (i + 1)) → Waits t w (counterAfter c p.2) p.1)) (m, n) := by
    refine settles_of_reachable ?_ ?_ ?_ (.here (a := (m₁, 0)) ho1 ⟨hs, fun _ => hw⟩) h
    · rintro ⟨a, n⟩ b ho ⟨hs, hw⟩ hstep
      obtain ⟨a', ha', rfl⟩ := Option.map_eq_some_iff.mp hstep
      refine ((settles_step ho hs ha').tally n).imp ?_
      rintro ⟨b, _⟩ ⟨hb, rfl⟩
      exact ⟨hb.sleepers, fun hdue => (hw hdue).undisturbed hb⟩
    · rintro ⟨a, n⟩ b ho ⟨hs, hw⟩ henv
      cases henv with
      | @sleep _ _ w' k hcode =>
        have hcall := hs.call hcode w'
        exact .here ho ⟨hcall.sleepers, fun hdue => (hw hdue).undisturbed hcall⟩
      | interrupt _ hdoze =>
        refine ((settles_interrupt hs hdoze).tally (n + 1)).imp ?_
        rintro ⟨b, _⟩ ⟨hb, rfl⟩
        refine ⟨hb.sleepers, fun hdue => ?_⟩
        exact (hw fun i hi => hdue i (by omega)).ticked hb (hdue n (by omega))
    · rintro ⟨a, n⟩ b henv
      cases henv with
      | sleep hcode => exact .inr (by rw [tally, step, hcode]; rfl)
      | interrupt hint _ => exact .inl hint
  exact hinv.holds ho

theorem after_quiet {a : Machine} (h : After m₁ n a) (hq : QuietTo a m) : After m₁ n m := by
  induction hq with
  | refl => exact h
  | tail _ hs ih => exact ih.tail (.inl (tally_eq_some n hs.2))

theorem Waits.exists_after (hs : Sleepers T m₁) (ho : IsOpen m₁) (hcalm : ¬m₁.Dozes)
    (hw : Waits t w c m₁) (hdue : ∀ i < n, ¬w ≤ counterAfter c (i + 1)) :
    ∃ m, After m₁ n m ∧ IsOpen m ∧ Sleepers T m ∧ ¬m.Dozes ∧ Waits t w (counterAfter c n) m := by
  induction n with
  | zero => exact ⟨m₁, .refl, ho, hs, hcalm, hw⟩
  | succ n ih =>
    obtain ⟨m, hafter, ho, hs, hcalm, hw⟩ := ih fun i hi => hdue i (by omega)
    obtain ⟨m', ⟨hquiet, ho'⟩, htick⟩ := (settles_interrupt hs hcalm).exists_lands
    refine ⟨m', after_quiet (hafter.tail (.inr (.interrupt ho hcalm))) hquiet, ho',
      htick.sleepers, htick.calm, ?_⟩
    exact hw.ticked htick (hdue n (by omega))

/-- **The interrupt that wakes the task** puts it on the ready list. -/
theorem Waits.exists_puts (hs : Sleepers T m) (hcalm : ¬m.Dozes) (hw : Waits t w c m)
    (hdue : w ≤ c + 1 + 1) : ∃ m', Lands step IsOpen m.interrupt m' ∧ PutsOnReadyList t m m' := by
  obtain ⟨m', hlands, htick⟩ := (settles_interrupt hs hcalm).exists_lands
  refine ⟨m', hlands, hs.not_onReadyList hw.state, ?_⟩
  have hdue' : m.sched.ticked.due t = true := by
    refine decide_eq_true ?_
    show (m.sched.pcb t).sleepUntil ≤ m.sched.counter + 1 + 1
    rwa [hw.sleepUntil, hw.counter]
  exact (htick.woken t hw.state hdue').imp_right fun hcur => ⟨hcur, hw.current⟩

/-! ### The call -/

/-- The task is on the sleeping list, and is about to block or has done so. -/
structure Falls (t : PcbPtr) (w c : UInt32) (m : Machine) : Prop where
  state : (m.sched.pcb t).state = .sleeping
  sleepUntil : (m.sched.pcb t).sleepUntil = w
  counter : m.sched.counter = c
  code : m.sched.currentPCB = some t → m.code = blockProcess .sleeping ++ [.user]

theorem Falls.undisturbed (h : Falls t w c m) (hm : Undisturbed m.sched T m') : Falls t w c m' := by
  obtain ⟨hst, hw, hcur⟩ := hm.asleep t h.state
  exact ⟨hst, hw.trans h.sleepUntil, hm.counter.trans h.counter, fun hc => absurd hc hcur⟩

/-- A task that calls `SleepUntil` in its own code. -/
structure Calls (m : Machine) (t : PcbPtr) (R L T : List PcbPtr) : Prop where
  asleep : Asleep m.sched m.saved m.owner R L T
  owner : m.owner = t
  current : m.sched.currentPCB = some m.owner
  notMem : m.owner ∉ R ++ L ++ T
  next : m.sched.next m.owner = none
  code : m.code = [.user]
  locked : m.sched.locked 0 0 false = m.sched
  opened : m.opened m.sched 0 [.user] = m

theorem Sleepers.calls (h : Sleepers T m) (ho : IsOpen m) (hcode : m.code = [.user])
    (hcur : m.sched.currentPCB = some t) : ∃ R L, Calls m t R L T := by
  obtain ⟨R, L, hasleep, hshape, hpost, hflag⟩ := h
  obtain ⟨-, hirq, hcur', hmem, hnext⟩ := hshape.of_user hcode
  have hself := Sched.locked_self hpost hflag
  have hopen := Machine.opened_self ho hpost hflag
  rw [hirq] at hself hopen
  rw [hcode] at hopen
  exact ⟨R, L, hasleep, Option.some.inj (hcur'.symm.trans hcur), hcur', hmem, hnext, hcode, hself,
    hopen⟩

variable {R L : List PcbPtr}

theorem Calls.step_call (h : Calls m t R L T) (w : UInt32) :
    step (m.call (.sleep w)) =
      some (m.closed m.sched 1 0 false (.postpone :: .sleepTest w :: [.user])) := by
  refine step_lock (m.call (.sleep w)) m.sched _ h.locked.symm ?_
  show sleepUntil w ++ m.code = _
  rw [h.code]
  rfl

/-- The machine with the task on the sleeping list, in front of `BlockProcess`. -/
def Machine.dozing (m : Machine) (w : UInt32) : Machine :=
  m.opened (m.sched.doze m.owner w) 0 (blockProcess .sleeping ++ [.user])

theorem Calls.quiet_doze (h : Calls m t R L T) (hw : ¬w < m.sched.counter) :
    QuietTo (m.closed m.sched 1 0 false (.postpone :: .sleepTest w :: [.user])) (m.dozing w) :=
  quiet_sleep m m.sched [.user] h.current hw

theorem Calls.falls (h : Calls m t R L T) (w : UInt32) :
    Falls t w m.sched.counter (m.dozing w) := by
  obtain ⟨hst, hw⟩ := doze_pcb m.sched m.owner t w
  rw [if_pos h.owner.symm] at hst hw
  exact ⟨hst, hw, (doze_eq m.sched m.owner w).2, fun _ => rfl⟩

theorem Calls.sleepers_dozing (h : Calls m t R L T) (w : UInt32) : Sleepers T (m.dozing w) := by
  obtain ⟨hst, -⟩ := doze_pcb m.sched m.owner m.owner w
  rw [if_pos rfl] at hst
  exact sleepers_opened (h.asleep.doze h.notMem h.next w)
    (.dozes ((doze_eq m.sched m.owner w).1.trans h.current) (by simp) hst)

/-- **After the call the task waits.** -/
theorem Slept.waits (hs : Sleepers T m₀) (ho : IsOpen m₀) (h : Slept m₀ t millis m₁)
    (hw : ¬millis + m₀.sched.counter < m₀.sched.counter) :
    Sleepers T m₁ ∧ Waits t (millis + m₀.sched.counter) m₀.sched.counter m₁ := by
  obtain ⟨R, L, hcalls⟩ := hs.calls ho h.code h.current
  set w := millis + m₀.sched.counter with hwdef
  have hinv : Settles step IsOpen (fun m => Sleepers T m ∧
      (m = m₀.call (.sleep w) ∨ Falls t w m₀.sched.counter m)) m₁ := by
    have hrun : Relation.ReflTransGen (fun a b => step a = some b ∨ False)
        (m₀.call (.sleep w)) m₁ := Relation.ReflTransGen.mono (fun _ _ hab => .inl hab) _ _ h.run
    have hcall : IsOpen (m₀.call (.sleep w)) := ho
    refine settles_of_reachable ?_ (fun _ _ _ _ h => h.elim) (fun _ _ h => h.elim)
      (.here hcall ⟨(hs.call h.code w).sleepers, .inl rfl⟩) hrun
    rintro a b hoa ⟨hsa, rfl | hfalls⟩ hstep
    · cases (hcalls.step_call w).symm.trans hstep
      exact (hcalls.quiet_doze hw).settles
        (.here rfl ⟨hcalls.sleepers_dozing w, .inr (hcalls.falls w)⟩)
    · refine (settles_step hoa hsa hstep).imp fun b hb => ?_
      exact ⟨hb.sleepers, .inr (hfalls.undisturbed hb)⟩
  obtain ⟨hs1, rfl | hfalls⟩ := hinv.holds h.isOpen
  · have hended := h.ended h.current
    rw [h.code] at hended
    cases hended.symm.trans (show (m₀.call (.sleep w)).code = sleepUntil w ++ [.user] by
      rw [← h.code]; rfl)
  · refine ⟨hs1, hfalls.state, hfalls.sleepUntil, fun hc => ?_, hfalls.counter⟩
    have hended := h.ended hc
    rw [hfalls.code hc, h.code] at hended
    cases hended

theorem Calls.exists_slept (h : Calls m t R L T)
    (hw : ¬millis + m.sched.counter < m.sched.counter) :
    ∃ m₁, Slept m t millis m₁ ∧ ¬m₁.Dozes := by
  set w := millis + m.sched.counter with hwdef
  have hcur : (m.sched.doze m.owner w).currentPCB = some m.owner :=
    (doze_eq m.sched m.owner w).1.trans h.current
  have hlock := step_lock (m.dozing w) (m.sched.doze m.owner w) _ rfl rfl
  obtain ⟨m₁, ⟨hquiet, ho1⟩, hland⟩ := (settles_block
    (h.asleep.doze h.notMem h.next w) hcur
    (show m.owner ∈ L ++ [m.owner] by simp)).exists_lands
  refine ⟨m₁, ⟨h.code, h.owner ▸ h.current, ?_, ho1, fun hc => ?_⟩, hland.calm⟩
  · refine .head (h.step_call w) ((h.quiet_doze hw).steps.trans ?_)
    exact .head hlock hquiet.steps
  · exact absurd ⟨t, hc, (hland.asleep t (h.falls w).state).1⟩ hland.calm

theorem Calls.slept_passed (h : Calls m t R L T) (ho : IsOpen m)
    (hw : millis + m.sched.counter < m.sched.counter) : Slept m t millis m := by
  have hquiet := quiet_sleep_passed m m.sched [.user] hw
  rw [h.opened] at hquiet
  exact ⟨h.code, h.owner ▸ h.current, .head (h.step_call _) hquiet.steps, ho, fun _ => rfl⟩

end

/-! ### Two tasks -/

/-- Two tasks as in `pairMachine`, when the counter is `c`. -/
def pairAt (c : UInt32) : Machine :=
  { pairMachine with sched := { pairMachine.sched with counter := c } }

theorem sleepStart_pairAt (c : UInt32) : SleepStart (pairAt c) [1] [] where
  lists := ⟨sleepStart_pairMachine.lists.ready, sleepStart_pairMachine.lists.sleep,
    sleepStart_pairMachine.lists.term, sleepStart_pairMachine.lists.nodup⟩
  awake := sleepStart_pairMachine.awake
  parked := sleepStart_pairMachine.parked
  current := rfl
  owner := sleepStart_pairMachine.owner
  next := rfl
  code := rfl
  irq := rfl
  postpone := rfl
  flag := rfl
  interrupts := rfl

/-- **The first interrupt ends the time slice of the first task.** -/
theorem exists_puts_pairAt (c : UInt32) :
    ∃ m', Lands step IsOpen (pairAt c).interrupt m' ∧ PutsOnReadyList 0 (pairAt c) m' := by
  have hlists := (sleepStart_pairAt c).lists
  set s : Sched := (pairAt c).sched.ticked.spent 0 with hs
  have hwake : QuietTo ((pairAt c).closed (pairAt c).sched.ticked 1 1 false
      (.wake none :: .quantum :: unlock [.iret, .user]))
      ((pairAt c).closed (pairAt c).sched.ticked 1 1 false
        (.quantum :: unlock [.iret, .user])) := quiet_of_step rfl
  have hquantum : QuietTo ((pairAt c).closed (pairAt c).sched.ticked 1 1 false
      (.quantum :: unlock [.iret, .user]))
      ((pairAt c).closed s 1 0 false (.schedule :: .unlockScheduler :: [.iret, .user])) :=
    quiet_quantum (pairAt c) (pairAt c).sched.ticked [.iret, .user] rfl
      (show (0 - 1 : Int32) ≤ 0 by decide)
  have hswitch := quiet_switch (pairAt c) (s := s) (.unlockScheduler :: [.iret, .user]) rfl rfl
  have hquiet := (((quiet_tick (pairAt c) (pairAt c).sched [.user] 0).trans hwake).trans
    hquantum).trans hswitch
  -- the second task, which is new, unlocks the scheduler and runs
  have hunlock := quiet_unlock
    { pairAt c with
      saved := Function.update (pairAt c).saved 0 [.returned, .unlockScheduler, .iret, .user]
      owner := 1 } (s.switched 0 1) [.user]
  refine ⟨_, ⟨hquiet.trans hunlock, rfl⟩, ?_, .inl ⟨[0], ?_, List.mem_singleton_self 0⟩⟩
  · rintro ⟨R, hR, hmem⟩
    rw [← hlists.ready.chain.unique hR.chain] at hmem
    exact absurd hmem (by decide)
  · have hticked : Lists (pairAt c).sched.ticked [1] [] [] :=
      ⟨hlists.ready, queue_nil.mpr ⟨rfl, rfl⟩, hlists.term, hlists.nodup⟩
    have hspent : Lists s [1] [] [] := hticked.modify 0 fun _ => rfl
    exact (hspent.switched fun _ => by decide).1.ready

/-! ### When a task sleeps long enough -/

/-- **A task is woken too early** unless the counter does not come to its time. -/
theorem not_sleepsThrough_of_woken {c millis : UInt32} (htwo : 2 ≤ millis.toNat)
    (hsum : c.toNat + 2 * ((millis.toNat + 1) / 2) < 2 ^ 32) : ¬SleepsThrough c millis := by
  intro hsleeps
  have hs := (sleepStart_pairAt c).sleepers
  obtain ⟨R, L, hcalls⟩ := hs.calls rfl rfl rfl
  have hw : (millis + c).toNat = c.toNat + millis.toNat := by
    rw [UInt32.toNat_add]
    omega
  have hpassed : ¬millis + c < c := by
    rw [lt_iff_toNat_lt]
    omega
  obtain ⟨m₁, hslept, hcalm⟩ := hcalls.exists_slept hpassed
  obtain ⟨hs1, hwaits⟩ : Sleepers [] m₁ ∧ Waits 0 (millis + c) c m₁ :=
    hslept.waits hs rfl hpassed
  have hcount : ∀ i ≤ (millis.toNat + 1) / 2, (counterAfter c i).toNat = c.toNat + 2 * i := by
    intro i hi
    rw [toNat_counterAfter]
    omega
  obtain ⟨m, hafter, ho, hsm, hcalm, hwaits⟩ := hwaits.exists_after hs1 hslept.isOpen hcalm
    (n := (millis.toNat + 1) / 2 - 1) fun i hi => by
      rw [le_iff_toNat_le, hcount (i + 1) (by omega)]
      omega
  obtain ⟨m', hlands, hputs⟩ := hwaits.exists_puts hsm hcalm (by
    change millis + c ≤ counterAfter c ((millis.toNat + 1) / 2 - 1 + 1)
    rw [le_iff_toNat_le, hcount _ (by omega)]
    omega)
  have := hsleeps [] (pairAt c) 0 m₁ hs rfl rfl hslept _ m m' hafter ho hcalm hlands hputs
  omega

/-- **A task whose time wraps around** is put on the ready list by the next interrupt. -/
theorem not_sleepsThrough_of_passed {c millis : UInt32} (htwo : 2 ≤ millis.toNat)
    (hsum : 2 ^ 32 ≤ c.toNat + millis.toNat) : ¬SleepsThrough c millis := by
  intro hsleeps
  have hs := (sleepStart_pairAt c).sleepers
  obtain ⟨R, L, hcalls⟩ := hs.calls rfl rfl rfl
  have hpassed : millis + c < c := by
    have hm := millis.toNat_lt
    rw [UInt32.lt_iff_toNat_lt, UInt32.toNat_add]
    omega
  obtain ⟨m', hlands, hputs⟩ := exists_puts_pairAt c
  have hcalm : ¬(pairAt c).Dozes := by
    rintro ⟨q, -, hq⟩
    exact (sleepStart_pairAt c).awake q hq
  have := hsleeps [] (pairAt c) 0 (pairAt c) hs rfl rfl (hcalls.slept_passed rfl hpassed) 0
    (pairAt c) m' .refl rfl hcalm hlands hputs
  omega

/-- **A task sleeps long enough** iff it asks for at most one interrupt, or a time that is skipped.
-/
theorem sleepsThrough_iff (c millis : UInt32) : SleepsThrough c millis ↔
    millis.toNat ≤ 1 ∨ c.toNat % 2 = 0 ∧ c.toNat + millis.toNat = 2 ^ 32 - 1 := by
  constructor
  · intro hsleeps
    by_contra hcon
    rcases Nat.lt_or_ge (c.toNat + 2 * ((millis.toNat + 1) / 2)) (2 ^ 32) with hlt | hge
    · exact not_sleepsThrough_of_woken (by omega) hlt hsleeps
    · exact not_sleepsThrough_of_passed (by omega) (by omega) hsleeps
  · rintro (hle | ⟨heven, hsum⟩)
    · intro T m₀ t m₁ _ _ _ _ n m m' _ _ _ _ _
      omega
    · intro T m₀ t m₁ hs ho hc hslept n m m' hafter hom hcalm hlands hputs
      have hw : (millis + c).toNat = 2 ^ 32 - 1 := by
        rw [UInt32.toNat_add]
        omega
      subst hc
      obtain ⟨hs1, hwaits⟩ := hslept.waits hs ho (by rw [lt_iff_toNat_lt]; omega)
      -- the counter stays even
      have hnever : ∀ i, ¬millis + m₀.sched.counter ≤ counterAfter m₀.sched.counter i := by
        intro i
        rw [le_iff_toNat_le, toNat_counterAfter]
        omega
      obtain ⟨hsm, hwaits⟩ := Waits.after hs1 hslept.isOpen hwaits hafter hom
      obtain ⟨b, hb, htick⟩ := (settles_interrupt hsm hcalm).exists_lands
      obtain rfl := hlands.unique hb
      have hwaits' := (hwaits fun i _ => hnever (i + 1)).ticked htick (hnever (n + 1))
      rcases hputs with ⟨-, hready | ⟨hcur, -⟩⟩
      · exact absurd hready (htick.sleepers.not_onReadyList hwaits'.state)
      · exact absurd hcur hwaits'.current

/-- `Sleep(2)` is over after one interrupt. -/
theorem not_sleepsThrough_two : ¬SleepsThrough 0 2 ∧
    (run [.call (sleep (pairAt 0).sched 2), .steps 13, .interrupt, .steps 8] (pairAt 0)).map
      (fun m => (m.sched.counter, m.sched.readyListHead)) = some (2, some 0) ∧
    (run [.call (sleep (pairAt 0).sched 2), .steps 13, .interrupt, .steps 18] (pairAt 0)).map
      (fun m => (m.sched.currentPCB, m.code)) = some (some 0, [.user]) :=
  ⟨not_sleepsThrough_of_woken (by decide) (by decide), by decide, by decide⟩

end AthenX.Scheduler
