import AthenX.Scheduler.Locks

/-!
# What `Schedule` returns with

`Schedule` returns at once, through `SwitchToTask`, or out of the idle loop, and the task should be
`currentPCB` and `RUNNING`. The idle loop makes `currentPCB` the task that went idle. If it finds
another one ready, `SwitchToTask` makes that one `RUNNING`; the same one goes on in the state
`AddReady` gave it.
-/

namespace AthenX.Scheduler

open List Option Function

/-! ### The idle loops of a stack -/

/-- The task of an idle loop. -/
def Op.idler : Op → Option PcbPtr
  | .idleCheck t => some t
  | _            => none

/-- The tasks whose idle loops are on a stack. -/
def idles (k : List Op) : List PcbPtr := k.filterMap Op.idler

@[simp] theorem idles_nil : idles [] = [] := rfl

@[simp] theorem idles_append (k l : List Op) : idles (k ++ l) = idles k ++ idles l :=
  List.filterMap_append

theorem idles_cons (op : Op) (k : List Op) : idles (op :: k) = op.idler.toList ++ idles k := by
  rw [idles, filterMap_cons]
  cases op.idler <;> rfl

@[simp] theorem idles_unlockAndSchedule : idles unlockAndSchedule = [] := rfl
@[simp] theorem idles_blockProcess (r : State) : idles (blockProcess r) = [] := rfl
/-! ### Whose stack runs -/

/-- The stack that runs belongs to `currentPCB` or, if that is null, to the idle task. -/
structure Owned (m : Machine) : Prop where
  current : m.sched.currentPCB = none ∨ m.sched.currentPCB = some m.owner
  code : idles m.code = if m.sched.currentPCB = none then [m.owner] else []
  saved : ∀ q, idles (m.saved q) = []
  head : m.sched.currentPCB = none → HeadReady m.sched

namespace Owned

variable {m m' : Machine} {op : Op} {k : List Op}

section

variable (h : Owned m)

include h

theorem update {s : Sched} (hs : SameLocks m.sched s) (hk : idles k = idles m.code)
    (hh : m.sched.currentPCB = none → HeadReady m.sched → HeadReady s) : Owned (m.update s k) where
  current := by
    show s.currentPCB = none ∨ s.currentPCB = some m.owner
    rw [hs.current]; exact h.current
  code := by
    show idles k = if s.currentPCB = none then [m.owner] else []
    rw [hs.current, hk]; exact h.code
  saved := h.saved
  head := by
    intro hc
    have hc' : m.sched.currentPCB = none := hs.current.symm.trans hc
    exact hh hc' (h.head hc')

theorem update_of_busy {s : Sched} (hs : SameLocks m.sched s)
    (hk : idles k = idles m.code) (hidle : m.idle = false) : Owned (m.update s k) := by
  refine h.update hs hk ?_
  intro hc
  rw [Machine.idle, hc] at hidle
  cases hidle

theorem current_of_busy (hidle : m.idle = false) : m.sched.currentPCB = some m.owner := by
  rcases h.current with hc | hc
  · rw [Machine.idle, hc] at hidle
    cases hidle
  · exact hc

/-- **`SwitchToTask`** makes the task it resumes the current one. -/
theorem switch {next : PcbPtr} (hp : m.sched.postponeTaskCounter = 0)
    (hk : idles k = []) (hm : m.switch next k = some m') :
    Owned m' ∧ m'.sched.currentPCB = some m'.owner ∧ (m'.sched.pcb m'.owner).state = .running := by
  rw [Machine.switch, if_neg (not_not.mpr hp)] at hm
  cases hc : m.sched.currentPCB with
  | none => rw [hc] at hm; cases hm
  | some c =>
    rw [hc] at hm
    cases hm
    have hsaved : ∀ q, idles (Function.update m.saved c k q) = [] := by
      intro q
      by_cases hq : q = c
      · rw [hq, update_self]; exact hk
      · rw [update_of_ne hq]; exact h.saved q
    refine ⟨⟨.inr rfl, hsaved next, hsaved, fun hn => by cases hn⟩, rfl, ?_⟩
    rw [Sched.modify_self]

theorem schedule (hidle : m.idle = false) (hcode : idles k = [])
    (hm : m.schedule k = some m') : Owned m' := by
  have hcur := h.current_of_busy hidle
  have hk : idles k = idles m.code := by
    rw [hcode, h.code, if_neg (by rw [hcur]; exact some_ne_none _)]
  unfold Machine.schedule at hm
  split at hm
  · cases hm
    exact ⟨h.current, hk.trans h.code, h.saved, h.head⟩
  · have hs := SameLocks.nextReady m.sched
    cases hh : m.sched.readyListHead with
    | none =>
      rw [Sched.nextReady_of_none hh] at hm
      simp only [hcur] at hm
      split at hm
      · cases hm
        exact h.update_of_busy (SameLocks.refl _) hk hidle
      · -- the ready list is empty when the loop is entered
        cases hm
        refine ⟨.inl rfl, ?_, h.saved, ?_⟩
        · show idles (.hlt :: .idleCheck m.owner :: .returned :: k) = [m.owner]
          rw [idles_cons, idles_cons, idles_cons, hcode]
          rfl
        · intro _ p hp
          exact absurd (hh.symm.trans hp) (some_ne_none p).symm
    | some next =>
      rw [Sched.nextReady_of_some hh] at hm hs
      cases hm
      exact h.update_of_busy (hs.trans (SameLocks.modify _ _ _)) hk hidle

/-- **The idle loop** makes the task that went idle current, in the state it is found in. -/
theorem idleCheck {task : PcbPtr} (hcode : m.code = .idleCheck task :: k) (hidle : m.idle = true) :
    Owned (m.idleCheck task k) ∧ task = m.owner ∧ idles k = [] ∧
      (∀ k', (m.idleCheck task k).code = .returned :: k' → m.sched.readyListHead = some task ∧
        ((m.idleCheck task k).sched.pcb task).state ≠ .running) := by
  have hnone : m.sched.currentPCB = none := by
    cases hc : m.sched.currentPCB with
    | none => rfl
    | some c => rw [Machine.idle, hc] at hidle; cases hidle
  have hidles := h.code
  rw [hcode, if_pos hnone] at hidles
  have htask : task = m.owner := (List.cons.inj hidles).1
  have hk : idles k = [] := (List.cons.inj hidles).2
  have hhead := h.head hnone
  cases hh : m.sched.readyListHead with
  | none =>
    simp only [Machine.idleCheck, Sched.nextReady_of_none hh]
    refine ⟨⟨.inl hnone, ?_, h.saved, fun _ => hhead⟩, htask, hk, ?_⟩
    · show idles (.hlt :: .idleCheck task :: k) = if m.sched.currentPCB = none then _ else _
      rw [if_pos hnone, idles_cons, idles_cons, hk, htask]
      rfl
    · intro k' hk'
      cases hk'
  | some r =>
    simp only [Machine.idleCheck, Sched.nextReady_of_some hh]
    refine ⟨⟨.inr (by rw [htask]; rfl), ?_, h.saved, fun hn => by cases hn⟩, htask, hk, ?_⟩
    · show idles (if r ≠ task then .switchToTask r :: k else k) = []
      split
      · rw [idles_cons, hk]; rfl
      · exact hk
    · intro k' hk'
      by_cases hr : r ≠ task
      · rw [if_pos hr] at hk'
        cases hk'
      · obtain rfl := not_not.mp hr
        refine ⟨rfl, ?_⟩
        rw [Sched.modify_self]
        rw [Sched.popReady_state]
        exact hhead r hh

/-- **One statement** of any kind. -/
theorem exec (hi : Inv m) (hcode : m.code = op :: k)
    (hm : Scheduler.exec m op k = some m') : Owned m' := by
  have ht := hi.code
  have hidles := h.code
  rw [hcode] at ht
  -- off the idle loop no statement but its own is one
  have hk : op.idler = none → idles k = idles m.code := by
    intro hop
    rw [hcode, idles_cons, hop]
    rfl
  have hempty : m.idle = false → op.idler = none → idles k = [] := by
    intro hidle hop
    rw [hk hop, hidles, if_neg]
    rw [h.current_of_busy hidle]
    exact some_ne_none _
  cases op with
  | user | butlerLoop | hlt => cases hm
  | initPcb p =>
    cases hm
    have hcur := h.current_of_busy ht.1
    refine ⟨h.current, ?_, ?_, ?_⟩
    · show idles (unblockProcess p ++ k) = _
      rw [idles_append, hk rfl]
      exact hidles
    · intro q
      show idles (Function.update m.saved p newStack q) = []
      by_cases hq : q = p
      · rw [hq, update_self]; rfl
      · rw [update_of_ne hq]; exact h.saved q
    · intro hn
      have hn' : m.sched.currentPCB = none := hn
      rw [hcur] at hn'
      cases hn'
  | lockScheduler | unlockScheduler | postpone | iret =>
    cases hm
    exact ⟨h.current, (hk rfl).trans hidles, h.saved, h.head⟩
  | unpostpone =>
    simp only [Scheduler.exec] at hm
    split at hm
    · cases hm
      exact ⟨h.current, (idles_cons _ _).trans ((hk rfl).trans hidles), h.saved, h.head⟩
    · cases hm
      exact ⟨h.current, (hk rfl).trans hidles, h.saved, h.head⟩
  | schedule => exact h.schedule ht.1 (hempty ht.1 rfl) hm
  | idleCheck task =>
    cases hm
    exact (h.idleCheck hcode ht.1).1
  | switchToTask next => exact (h.switch ht.2.2.1 (hempty ht.1 rfl) hm).1
  | _ =>
    obtain ⟨s, l, hf, rfl, hs, hh⟩ := exec_plain rfl hm
    refine h.update hs ?_ hh
    have hl : idles l = [] := by cases hf <;> rfl
    rw [idles_append, hl, nil_append, hk rfl]

theorem step (hi : Inv m) (hm : Scheduler.step m = some m') : Owned m' := by
  unfold Scheduler.step at hm
  cases hcode : m.code with
  | nil => rw [hcode] at hm; cases hm
  | cons op k => rw [hcode] at hm; exact h.exec hi hcode hm

theorem call (c : Call) : Owned (m.call c) := by
  refine ⟨h.current, ?_, h.saved, h.head⟩
  show idles (c.body m.sched ++ m.code) = _
  rw [idles_append, show idles (c.body m.sched) = [] by cases c <;> rfl]
  exact h.code

theorem interrupt : Owned m.interrupt := by
  refine ⟨h.current, ?_, h.saved, h.head⟩
  show idles (timerHandler ++ _) = _
  have hc := h.code
  split
  · next k hk =>
    rw [hk] at hc
    exact hc
  · exact hc

end

end Owned

theorem Started.owned {m : Machine} (h : Started m) : Owned m := by
  refine ⟨.inr h.current, ?_, ?_, ?_⟩
  · rw [if_neg (by rw [h.current]; exact some_ne_none _)]
    rcases h.code with hc | hc
    · rw [hc]; rfl
    · rw [hc]; rfl
  · intro q
    rcases h.saved q with hq | hq
    · rw [hq]; rfl
    · rw [hq]; rfl
  · intro hn
    rw [h.current] at hn
    cases hn

/-- **The stack that runs is the current task's in every run.** -/
theorem owned_of_reachable {ok : Machine → Call → Prop} {m0 m : Machine} (h0 : Started m0)
    (h : Reachable ok m0 m) : Owned m := by
  induction h with
  | refl => exact h0.owned
  | tail hr hn ih =>
    cases hn with
    | step hm => exact ih.step (inv_of_reachable h0 hr) hm
    | call _ _ _ => exact ih.call _
    | interrupt _ => exact ih.interrupt

/-! ### The return of `Schedule` -/

/-- The task that `Schedule` returned to is the current one, and it is `RUNNING`. -/
def ReturnsRunning (m : Machine) : Prop :=
  m.sched.currentPCB = some m.owner ∧ (m.sched.pcb m.owner).state = .running

theorem Typed.before_returned {idle : Bool} {i p : ℤ} {op : Op} {k : List Op}
    (h : Typed idle i p (op :: .returned :: k)) :
    (op = .user ∨ op = .butlerLoop) ∨ (∃ next, op = .switchToTask next) ∨
      (∃ task, op = .idleCheck task) ∨ (op = .schedule ∧ 1 ≤ p) := by
  cases op with
  | user => exact .inl (.inl rfl)
  | butlerLoop => exact .inl (.inr rfl)
  | switchToTask next => exact .inr (.inl ⟨next, rfl⟩)
  | idleCheck task => exact .inr (.inr (.inl ⟨task, rfl⟩))
  | schedule =>
    obtain ⟨-, hlev, -⟩ := h
    rcases hlev with ⟨hp, -⟩ | ⟨-, -, hne⟩
    · exact .inr (.inr (.inr ⟨rfl, hp⟩))
    · exact absurd rfl hne
  | lockScheduler => exact absurd rfl h.2.2.1
  | unpostpone => exact absurd rfl h.2.2.1
  | returned => exact absurd rfl h.2.2.2.1
  | hlt =>
    obtain ⟨hidle, -, -, hr, -⟩ := h
    exact absurd (hidle.symm.trans hr) (by decide)
  | unlockScheduler =>
    obtain ⟨-, hi, hidle, hone, hp, -⟩ := h
    rw [hidle, show base false = 0 from rfl] at hi
    omega
  | timerCount =>
    obtain ⟨-, hi, hidle, hone, -⟩ := h
    rw [hidle, show base false = 0 from rfl] at hi
    omega
  | iret =>
    obtain ⟨-, hi, hidle, hone, -⟩ := h
    rw [hidle, show base false = 0 from rfl] at hi
    omega
  | _ =>
    simp only [Typed] at h
    omega

/-- **Which statements return from `Schedule`.** -/
theorem exec_returned {m m' : Machine} {op : Op} {k k' : List Op} (hi : Inv m)
    (hcode : m.code = op :: k) (hm : exec m op k = some m') (hret : m'.code = .returned :: k') :
    (op = .schedule ∧ m.sched.postponeTaskCounter = 0) ∨ (∃ next, op = .switchToTask next) ∨
      (∃ task, op = .idleCheck task) := by
  have ht := hi.code
  rw [hcode] at ht
  -- a statement that only goes on would find the return behind itself
  have hgo : m'.code = k → (∃ next, op = .switchToTask next) ∨ (∃ task, op = .idleCheck task) := by
    intro hk
    rw [← hk, hret] at ht
    rcases ht.before_returned with (rfl | rfl) | h | h | ⟨rfl, hp⟩
    · cases hm
    · cases hm
    · exact .inl h
    · exact .inr h
    · -- a postponed call is no return of this kind
      obtain ⟨-, -, hk'⟩ := ht
      have := hk'.2.2.1
      omega
  cases op with
  | switchToTask next => exact .inr (.inl ⟨next, rfl⟩)
  | idleCheck task => exact .inr (.inr ⟨task, rfl⟩)
  | schedule =>
    by_cases hp : m.sched.postponeTaskCounter = 0
    · exact .inl ⟨rfl, hp⟩
    · have hk : m'.code = k := by
        simp only [exec, Machine.schedule, if_pos hp] at hm
        cases hm
        rfl
      exact .inr (hgo hk)
  | user | butlerLoop | hlt => cases hm
  | initPcb p => cases hm; cases hret
  | lockScheduler | unlockScheduler | postpone | iret => cases hm; exact .inr (hgo rfl)
  | unpostpone =>
    simp only [exec] at hm
    split at hm
    · cases hm
      cases hret
    · cases hm
      exact .inr (hgo rfl)
  | _ =>
    obtain ⟨s, l, hf, rfl, -⟩ := exec_plain rfl hm
    obtain rfl : l = [] := by cases hf <;> first | rfl | cases hret
    exact .inr (hgo rfl)

/-- **When `Schedule` returns to a task that is current and `RUNNING`**: in every run, exactly when
the idle loop does not find the task that went idle at the head of the ready list. -/
theorem schedule_returns_iff {m₀ m m' : Machine} {k : List Op} (h₀ : Started m₀)
    (h : Reachable (fun _ _ => True) m₀ m) (hs : step m = some m')
    (hret : m'.code = .returned :: k) :
    ReturnsRunning m' ↔
      ∀ task k', m.code = .idleCheck task :: k' → m.sched.readyListHead ≠ some task := by
  have hi := inv_of_reachable h₀ h
  have ho := owned_of_reachable h₀ h
  have hcode : ∃ op k, m.code = op :: k ∧ exec m op k = some m' := by
    unfold step at hs
    cases hc : m.code with
    | nil => rw [hc] at hs; cases hs
    | cons op k => rw [hc] at hs; exact ⟨op, k, rfl, hs⟩
  obtain ⟨op, l, hc, hm⟩ := hcode
  have ht := hi.code
  rw [hc] at ht
  rcases exec_returned hi hc hm hret with ⟨rfl, hp⟩ | ⟨next, rfl⟩ | ⟨task, rfl⟩
  · -- at once: the code has looked at the state
    refine iff_of_true ?_ fun task k' hk' => by rw [hc] at hk'; cases hk'
    have hcur := ho.current_of_busy ht.1
    simp only [exec, Machine.schedule, if_neg (not_not.mpr hp)] at hm
    cases hh : m.sched.readyListHead with
    | none =>
      rw [Sched.nextReady_of_none hh] at hm
      simp only [hcur] at hm
      split at hm
      · next hrun =>
        cases hm
        exact ⟨hcur, hrun⟩
      · cases hm
        cases hret
    | some r =>
      rw [Sched.nextReady_of_some hh] at hm
      cases hm
      cases hret
  · refine iff_of_true ?_ fun task k' hk' => by rw [hc] at hk'; cases hk'
    obtain ⟨hidle, -, hp, -⟩ := ht
    have hempty : idles l = [] := by
      have hall := ho.code
      rw [hc, if_neg (by rw [ho.current_of_busy hidle]; exact some_ne_none _)] at hall
      exact hall
    exact (ho.switch hp hempty hm).2
  · cases hm
    obtain ⟨-, htask, -, hself⟩ := ho.idleCheck hc ht.1
    obtain ⟨hhead, hstate⟩ := hself k hret
    refine iff_of_false ?_ ?_
    · rintro ⟨hcur, hrun⟩
      have howner : (m.idleCheck task l).owner = task := by
        rw [htask]
        unfold Machine.idleCheck
        split <;> rfl
      rw [howner] at hrun
      exact hstate hrun
    · intro hall
      exact hall task l hc hhead

/-- The machine after `InitScheduler`, with the first task in code of its own. -/
def taskMachine : Machine := { bootMachine with code := [.user] }

theorem started_taskMachine : Started taskMachine :=
  ⟨.inl rfl, rfl, rfl, rfl, rfl, fun _ => .inl rfl⟩

/-- The one task sleeps until time `2`, and that interrupt has ended. -/
def sleepAlone : List Event := [.call (.sleep 2), .steps 11, .interrupt, .steps 15]

/-- The idle loop finds the one task, and `Schedule` returns to it with its state `READY`. -/
theorem schedule_returns_ready_taskMachine : Started taskMachine ∧
    ∃ m m' k, Reachable (fun _ _ => True) taskMachine m ∧ step m = some m' ∧
      m'.code = .returned :: k ∧ m'.sched.currentPCB = some m'.owner ∧
      (m'.sched.pcb m'.owner).state = .ready ∧ ¬ReturnsRunning m' := by
  have hrun : ((run sleepAlone taskMachine).bind step).map (fun m =>
      (m.code, m.sched.currentPCB, m.owner, (m.sched.pcb 0).state)) =
      some ([.returned, .unlockScheduler, .user], some 0, 0, .ready) := by decide
  obtain ⟨m', hm', hview⟩ := map_eq_some_iff.mp hrun
  obtain ⟨m, hm, hs⟩ := bind_eq_some_iff.mp hm'
  simp only [Prod.mk.injEq] at hview
  obtain ⟨hcode, hcur, howner, hstate⟩ := hview
  have hreach : Reachable (fun _ _ => True) taskMachine m :=
    reachable_run (fun _ _ _ => trivial) hm
  rw [← howner] at hcur hstate
  refine ⟨started_taskMachine, m, m', _, hreach, hs, hcode, hcur, hstate, ?_⟩
  rintro ⟨-, hr⟩
  exact absurd (hr.symm.trans hstate) (by decide)

/-- With nothing else to run, the interrupt of its time returns to the task at once. -/
theorem schedule_returns_iff_taskMachine : Started taskMachine ∧
    ∃ m m' k, Reachable (fun _ _ => True) taskMachine m ∧ step m = some m' ∧
      m'.code = .returned :: k ∧ ReturnsRunning m' := by
  have hrun : ((run [.interrupt, .steps 8] taskMachine).bind fun m =>
      (step m).map fun m' => (m.code, m'.code)) =
      some ([.schedule, .unlockScheduler, .iret, .user],
        [.returned, .unlockScheduler, .iret, .user]) := by decide
  obtain ⟨m, hm, hstep⟩ := bind_eq_some_iff.mp hrun
  obtain ⟨m', hs, hview⟩ := map_eq_some_iff.mp hstep
  obtain ⟨hcode, hcode'⟩ := Prod.mk.inj hview
  have hreach : Reachable (fun _ _ => True) taskMachine m :=
    reachable_run (fun _ _ _ => trivial) hm
  refine ⟨started_taskMachine, m, m', _, hreach, hs, hcode', ?_⟩
  refine (schedule_returns_iff started_taskMachine hreach hs hcode').mpr ?_
  intro task k' hk'
  rw [hcode] at hk'
  cases hk'

end AthenX.Scheduler
