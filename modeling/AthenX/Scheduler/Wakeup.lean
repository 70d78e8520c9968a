import AthenX.Scheduler.Segments

/-!
# No lost wakeups

`SleepUntil` puts the current task on the sleeping list, releases the scheduler and then blocks. In
between, its state is `SLEEPING` and interrupts are enabled: it *dozes*. After a timer interrupt
there the task is woken in front of `BlockProcess`, goes to sleep on no list, and is never woken
again. Otherwise the tasks that sleep are on the sleeping list. `Shape` lists where the code can be.
-/

namespace AthenX.Scheduler

open Linked Settling List Option Function

/-! ### Runs -/

/-- The current task sleeps already, but has not blocked yet. -/
def Machine.Dozes (m : Machine) : Prop :=
  ∃ c, m.sched.currentPCB = some c ∧ (m.sched.pcb c).state = .sleeping

/-- A task calls `SleepUntil`, or a timer interrupt is taken. -/
inductive SleepEnv (ok : Machine → Prop) : Machine → Machine → Prop
  | sleep {m : Machine} {w : UInt32} {k : List Op} : m.code = .user :: k →
      SleepEnv ok m (m.call (.sleep w))
  | interrupt {m : Machine} : m.interrupts = true → ok m → SleepEnv ok m m.interrupt

/-- The states of the runs from `m₀`. -/
def SleepRun (ok : Machine → Prop) (m₀ : Machine) : Machine → Prop :=
  Relation.ReflTransGen (fun a b => step a = some b ∨ SleepEnv ok a b) m₀

variable {m m' m₀ : Machine} {i : ℤ} {k : List Op} {o q : PcbPtr} {V : List PcbPtr}

theorem sleepRun_of_reachable (h : Reachable (fun _ c => ∃ w, c = .sleep w) m₀ m) :
    SleepRun (fun _ => True) m₀ m := by
  refine Relation.ReflTransGen.mono ?_ _ _ h
  intro a b hab
  cases hab with
  | step hs => exact .inl hs
  | @call c op k hcode hallowed hok =>
    obtain ⟨w, rfl⟩ := hok
    cases op with
    | user => exact .inr (.sleep hcode)
    | _ => cases hallowed
  | interrupt hint => exact .inr (.interrupt hint trivial)

theorem sleepRun_steps {ok : Machine → Prop} {n : ℕ} :
    ∀ {m m' : Machine}, steps n m = some m' → SleepRun ok m m' := by
  induction n with
  | zero =>
    intro m m' h
    cases h
    exact .refl
  | succ n ih =>
    intro m m' h
    obtain ⟨m1, h1, h2⟩ := bind_eq_some_iff.mp h
    exact .head (.inl h1) (ih h2)

/-! ### The invariant -/

/-- The stack of a task that is not about to block. -/
inductive Resting : List Op → Prop
  | user : Resting [.user]
  | sleep (w : UInt32) : Resting (sleepUntil w ++ [.user])
  | iret {k : List Op} : Resting k → Resting (.iret :: k)

/-- A stack left in `SwitchToTask`, or that of a new task. -/
def Parked (k : List Op) : Prop :=
  ∃ k', Resting k' ∧ (k = .unlockScheduler :: k' ∨ k = .returned :: .unlockScheduler :: k')

/-- The lists, with those that sleep on the sleeping list `L`. `o` owns the stack that runs. -/
structure Asleep (s : Sched) (saved : PcbPtr → List Op) (o : PcbPtr) (R L T : List PcbPtr) :
    Prop where
  lists : Lists s R L T
  asleep : ∀ q, (s.pcb q).state = .sleeping → q ∈ L
  parked : ∀ q ∈ R ++ L, q ≠ o → Parked (saved q)

/-- Where the code can be when interrupts are enabled. -/
inductive Shape (s : Sched) (o : PcbPtr) (R L T : List PcbPtr) : ℤ → List Op → Prop
  /-- In a task. -/
  | runs {k : List Op} : s.currentPCB = some o → o ∉ R ++ L ++ T → s.next o = none →
      Resting k → Shape s o R L T 0 k
  /-- In `SleepUntil`, in front of `BlockProcess`. -/
  | dozes : s.currentPCB = some o → o ∈ L → (s.pcb o).state = .sleeping →
      Shape s o R L T 0 (blockProcess .sleeping ++ [.user])
  /-- In the idle loop. -/
  | idles {k : List Op} : s.currentPCB = none → (s.pcb o).state ≠ .running → Resting k →
      Shape s o R L T 1 (.idleCheck o :: .returned :: .unlockScheduler :: k)
  | halts {k : List Op} : s.currentPCB = none → (s.pcb o).state ≠ .running → Resting k →
      Shape s o R L T 1 (.hlt :: .idleCheck o :: .returned :: .unlockScheduler :: k)

/-- The invariant of the states with interrupts enabled. -/
def Sleepers (T : List PcbPtr) (m : Machine) : Prop :=
  ∃ R L, Asleep m.sched m.saved m.owner R L T ∧
    Shape m.sched m.owner R L T m.sched.irqDisableCounter m.code ∧
    m.sched.postponeTaskCounter = 0 ∧ m.sched.taskChangePostponedFlag = false

/-- A task is on the ready list. -/
def Sched.OnReadyList (s : Sched) (q : PcbPtr) : Prop :=
  ∃ R, Queue s.next s.readyListHead s.readyListTail R ∧ q ∈ R

variable {s' : Sched}

section

variable {s : Sched} {saved : PcbPtr → List Op} {R L T : List PcbPtr}

theorem Shape.locked {j p : ℤ} {f : Bool} (h : Shape s o R L T j k) :
    Shape (s.locked i p f) o R L T j k := by
  cases h with
  | runs hc hmem hn hk => exact .runs hc hmem hn hk
  | dozes hc hmem hs => exact .dozes hc hmem hs
  | idles hc hs hk => exact .idles hc hs hk
  | halts hc hs hk => exact .halts hc hs hk

theorem sleepers_opened (h : Asleep s m.saved m.owner R L T)
    (hs : Shape s m.owner R L T i k) : Sleepers T (m.opened s i k) :=
  ⟨R, L, ⟨⟨h.lists.ready, h.lists.sleep, h.lists.term, h.lists.nodup⟩, h.asleep, h.parked⟩,
    hs.locked, rfl, rfl⟩

/-- Where a section ends in which nobody falls asleep: those that sleep are left alone, and those
ready stay so or run. -/
structure Landed (s : Sched) (R T : List PcbPtr) (m : Machine) : Prop where
  sleepers : Sleepers T m
  calm : ¬m.Dozes
  counter : m.sched.counter = s.counter
  asleep : ∀ q, (s.pcb q).state = .sleeping →
    (m.sched.pcb q).state = .sleeping ∧ (m.sched.pcb q).sleepUntil = (s.pcb q).sleepUntil
  awake : ∀ q ∈ R, m.sched.OnReadyList q ∨ m.sched.currentPCB = some q

theorem landed_opened (h : Asleep s m.saved m.owner R L T) (hs : Shape s m.owner R L T i k)
    (hcalm : ∀ c, s.currentPCB = some c → c ∉ L) : Landed s R T (m.opened s i k) := by
  refine ⟨sleepers_opened h hs, ?_, rfl, fun q hq => ⟨hq, rfl⟩, ?_⟩
  · rintro ⟨c, hc, hst⟩
    exact hcalm c hc (h.asleep c hst)
  · exact fun q hq => .inl ⟨R, h.lists.ready, hq⟩

theorem Landed.of {R' : List PcbPtr} (h : Landed s' R' T m)
    (hc : s'.counter = s.counter)
    (hasleep : ∀ q, (s.pcb q).state = .sleeping →
      (s'.pcb q).state = .sleeping ∧ (s'.pcb q).sleepUntil = (s.pcb q).sleepUntil)
    (hR : ∀ q ∈ R, q ∈ R' ∨ m.sched.currentPCB = some q) : Landed s R T m := by
  refine ⟨h.sleepers, h.calm, h.counter.trans hc, fun q hq => ?_, fun q hq => ?_⟩
  · obtain ⟨hst, hw⟩ := hasleep q hq
    obtain ⟨hst', hw'⟩ := h.asleep q hst
    exact ⟨hst', hw'.trans hw⟩
  · rcases hR q hq with hq | hq
    · exact h.awake q hq
    · exact .inr hq

theorem Parked.resumes (h : Parked k) (m : Machine) (s : Sched) :
    ∃ k', Resting k' ∧ QuietTo (m.closed s 1 0 false k) (m.opened s 0 k') := by
  obtain ⟨k', hk, rfl | rfl⟩ := h
  · exact ⟨k', hk, quiet_unlock m s k'⟩
  · exact ⟨k', hk, quiet_step rfl (quiet_unlock m s k')⟩

/-- **A switch** to another task. -/
theorem settles_switched {n : PcbPtr} (h : Asleep s m.saved m.owner (n :: R) L T)
    (hne : n ≠ m.owner) (hrun : (s.pcb m.owner).state = .running → m.owner ∉ n :: R ++ L ++ T)
    (hk : Parked k) : Settles step IsOpen (Landed s (n :: R) T) (m.switched s m.owner n k) := by
  have hn : n ∈ (n :: R) ++ L := by simp
  have hnd : n ∉ R ++ L ++ T := (nodup_cons.mp h.lists.nodup).1
  have hnL : n ∉ L := fun hc => hnd (by simp [hc])
  obtain ⟨hlists, hnext⟩ := h.lists.switched hrun
  -- the machine once the stack of `n` runs
  set m' : Machine := { m with saved := update m.saved m.owner k, owner := n } with hm'
  have hsw : m.switched s m.owner n k = m'.closed (s.switched m.owner n) 1 0 false (m.saved n) := by
    simp [Machine.switched, Machine.closed, hm', update_of_ne hne]
  obtain ⟨k', hk', hquiet⟩ := (h.parked n hn hne).resumes m' (s.switched m.owner n)
  obtain ⟨hcur', hcounter, -, -⟩ := switched_eq s m.owner n
  have hstate : ∀ q, (s.pcb q).state = .sleeping →
      ((s.switched m.owner n).pcb q).state = .sleeping := by
    intro q hq
    have hqn : q ≠ n := by
      rintro rfl
      exact hnL (h.asleep q hq)
    rw [switched_state, if_neg hqn, if_neg, hq]
    rintro ⟨rfl, hc⟩
    cases hq.symm.trans hc
  rw [hsw]
  refine hquiet.settles (.here rfl (Landed.of (landed_opened ⟨hlists, ?_, ?_⟩
    (.runs hcur' ?_ hnext hk') ?_) hcounter
    (fun q hq => ⟨hstate q hq, switched_sleepUntil n q⟩) ?_))
  · intro q hq
    rw [switched_state] at hq
    split at hq
    · cases hq
    · split at hq
      · cases hq
      · exact h.asleep q hq
  · intro q hq hqn
    by_cases hqo : q = m.owner
    · rw [hqo]
      show Parked (update m.saved m.owner k m.owner)
      rwa [update_self]
    · show Parked (update m.saved m.owner k q)
      rw [update_of_ne hqo]
      refine h.parked q ?_ hqo
      simp only [mem_append, mem_cons] at hq ⊢
      rcases hq with (hq | hq) | hq
      · exact .inl (.inr hq)
      · split at hq
        · exact absurd (by simpa using hq) hqo
        · cases hq
      · exact .inr hq
  · simp only [mem_append, not_or] at hnd ⊢
    refine ⟨⟨⟨hnd.1.1, ?_⟩, hnd.1.2⟩, hnd.2⟩
    split
    · simpa using hne
    · exact not_mem_nil
  · intro c hc
    cases hcur'.symm.trans hc
    exact hnL
  · intro q hq
    rcases mem_cons.mp hq with rfl | hq
    · exact .inr hcur'
    · exact .inl (mem_append_left _ hq)

/-- **`Schedule`**, called by the task that runs or that is about to sleep. -/
theorem settles_schedule (h : Asleep s m.saved m.owner R L T)
    (hcur : s.currentPCB = some m.owner) (hR : m.owner ∉ R)
    (hrun : (s.pcb m.owner).state = .running → m.owner ∉ R ++ L ++ T ∧ s.next m.owner = none)
    (hk : Resting k) :
    Settles step IsOpen (Landed s R T)
      (m.closed s 1 0 false (.schedule :: .unlockScheduler :: k)) := by
  cases R with
  | nil =>
    have hnone : s.readyListHead = none := h.lists.ready.chain
    by_cases hst : (s.pcb m.owner).state = .running
    · have hquiet := (quiet_direct m (.unlockScheduler :: k) hcur hnone hst).trans
        (quiet_unlock m s k)
      refine hquiet.settles (.here rfl (landed_opened h
        (.runs hcur (hrun hst).1 (hrun hst).2 hk) fun c hc => ?_))
      cases hcur.symm.trans hc
      exact fun hL => (hrun hst).1 (by simp [hL])
    · refine (quiet_idle m (.unlockScheduler :: k) hcur hnone hst).settles ?_
      have h' : Asleep { s with currentPCB := none } m.saved m.owner [] L T :=
        ⟨⟨h.lists.ready, h.lists.sleep, h.lists.term, h.lists.nodup⟩, h.asleep, h.parked⟩
      refine .here rfl ((landed_opened h' (.halts rfl hst hk) fun c hc => by cases hc).of rfl
        (fun q hq => ⟨hq, rfl⟩) fun q hq => .inl hq)
  | cons n R =>
    refine (quiet_switch m (.unlockScheduler :: k) hcur h.lists.head_eq).settles ?_
    have hne : n ≠ m.owner := fun hc => hR (by simp [hc])
    exact settles_switched h hne (fun hst => (hrun hst).1) ⟨k, hk, .inr rfl⟩

/-! ### The interrupt -/

theorem mem_of_mem_woken {P : PcbPtr → Bool}
    (h : q ∈ (R ++ L.filter P) ++ L.filter fun r => !P r) : q ∈ R ++ L := by
  simp only [mem_append, mem_filter] at h ⊢
  rcases h with (h | h) | h
  · exact .inl h
  · exact .inr h.1
  · exact .inr h.1

theorem Asleep.wake (h : Asleep s m.saved m.owner R L T) (hi : i ≠ 0) (k : List Op) :
    ∃ s', QuietTo (m.closed s.ticked i 1 false (.wake s.sleepingListHead :: k))
        (m.closed s' i 1 false k) ∧
      Asleep s' m.saved m.owner (R ++ L.filter s.ticked.due) (L.filter fun r => !s.ticked.due r) T ∧
      Woken s.ticked s' (R ++ T) L := by
  have hnd := h.lists.nodup
  have hticked : Lists s.ticked R [] T := by
    refine ⟨h.lists.ready, queue_nil.mpr ⟨rfl, rfl⟩, h.lists.term, ?_⟩
    exact hnd.sublist (by simp)
  have hdis : ∀ r ∈ L, r ∉ R ++ [] ++ T := by
    intro r hr hc
    rw [append_nil, mem_append] at hc
    rcases hc with hc | hc
    · exact h.lists.ready_notMem_sleep r hc hr
    · exact h.lists.notMem_term r (mem_append_right _ hr) hc
  obtain ⟨s', hquiet, hlists, hwoken⟩ :=
    quiet_wake m k hi (show (1 : ℤ) ≠ 0 by decide) hticked h.lists.sleep.chain hdis
  rw [append_nil] at hwoken
  refine ⟨s', hquiet, ⟨hlists, ?_, fun q hq hqo => h.parked q (mem_of_mem_woken hq) hqo⟩, hwoken⟩
  intro q hq
  rw [hwoken.state] at hq
  by_cases hL : q ∈ L
  · rw [if_pos hL] at hq
    cases hd : s.ticked.due q with
    | true => rw [hd] at hq; cases hq
    | false => exact mem_filter.mpr ⟨hL, by simp [hd]⟩
  · rw [if_neg hL] at hq
    exact absurd (h.asleep q hq) hL

theorem Woken.owner (h : Woken s.ticked s' (R ++ T) L) (ho : o ∉ R ++ L ++ T) :
    o ∉ (R ++ L.filter s.ticked.due) ++ (L.filter fun r => !s.ticked.due r) ++ T ∧
      s'.next o = s.next o := by
  simp only [mem_append, not_or] at ho
  refine ⟨?_, h.next o (by simp [ho]) ho.1.2⟩
  intro hc
  rcases mem_append.mp hc with hc | hc
  · have := mem_of_mem_woken hc
    simp [ho] at this
  · exact ho.2 hc

theorem Woken.not_running (h : Woken s s' V L)
    (ho : (s.pcb o).state ≠ .running) : (s'.pcb o).state ≠ .running := by
  rw [h.state]
  split
  · split <;> simp
  · exact ho

/-- Where an interrupt ends: those whose time has come are ready or run, and others sleep on. -/
structure Ticked (s : Sched) (T : List PcbPtr) (m : Machine) : Prop where
  sleepers : Sleepers T m
  calm : ¬m.Dozes
  counter : m.sched.counter = s.counter + 1 + 1
  woken : ∀ q, (s.pcb q).state = .sleeping → s.ticked.due q = true →
    m.sched.OnReadyList q ∨ m.sched.currentPCB = some q
  asleep : ∀ q, (s.pcb q).state = .sleeping → s.ticked.due q = false →
    (m.sched.pcb q).state = .sleeping ∧ (m.sched.pcb q).sleepUntil = (s.pcb q).sleepUntil

theorem Landed.ticked (h : Landed s' (R ++ L.filter s.ticked.due) T m)
    (hwoken : Woken s.ticked s' V L) (hasleep : ∀ q, (s.pcb q).state = .sleeping → q ∈ L) :
    Ticked s T m := by
  refine ⟨h.sleepers, h.calm, h.counter.trans hwoken.counter, fun q hq hd => ?_, fun q hq hd => ?_⟩
  · exact h.awake q (mem_append_right _ (mem_filter.mpr ⟨hasleep q hq, hd⟩))
  · have hst : (s'.pcb q).state = .sleeping := by
      rw [hwoken.state, if_pos (hasleep q hq), hd]
      rfl
    obtain ⟨hst', hw⟩ := h.asleep q hst
    exact ⟨hst', hw.trans (hwoken.sleepUntil q)⟩

theorem Asleep.spent (h : Asleep s saved o R L T) (c : PcbPtr) :
    Asleep (s.spent c) saved o R L T := by
  refine ⟨h.lists.modify c fun _ => rfl, ?_, h.parked⟩
  intro q hq
  refine h.asleep q ?_
  rw [spent_pcb] at hq
  split at hq
  · exact hq
  · exact hq

theorem Landed.spent {c : PcbPtr} (h : Landed (s.spent c) R T m) : Landed s R T m := by
  refine h.of rfl (fun q hq => ?_) fun q hq => .inl hq
  rw [spent_pcb]
  split
  · exact ⟨hq, rfl⟩
  · exact ⟨hq, rfl⟩

theorem settles_tick_idle (h : Asleep s m.saved m.owner R L T)
    (hcur : s.currentPCB = none) (hst : (s.pcb m.owner).state ≠ .running) (hk : Resting k) :
    Settles step IsOpen (Ticked s T) (m.closed s 1 0 false
      (timerHandler ++ .idleCheck m.owner :: .returned :: .unlockScheduler :: k)) := by
  obtain ⟨s', hquiet, h', hwoken⟩ := h.wake (i := 2) (by decide)
    (.quantum :: .unpostpone :: .unlockScheduler :: .iret ::
      .idleCheck m.owner :: .returned :: .unlockScheduler :: k)
  have hcur' : s'.currentPCB = none := hwoken.current.trans hcur
  refine (((quiet_tick m s _ 1).trans hquiet).trans (quiet_quantum_idle m s' _ hcur')).settles ?_
  have hland := landed_opened h' (.idles hcur' (hwoken.not_running hst) hk)
    fun c hc => by cases hcur'.symm.trans hc
  exact .here rfl (hland.ticked hwoken h.asleep)

theorem settles_tick (h : Asleep s m.saved m.owner R L T) (hcur : s.currentPCB = some m.owner)
    (ho : m.owner ∉ R ++ L ++ T) (hnext : s.next m.owner = none) (hk : Resting k) :
    Settles step IsOpen (Ticked s T) (m.closed s 0 0 false (timerHandler ++ k)) := by
  obtain ⟨s', hquiet, h', hwoken⟩ := h.wake (i := 1) (by decide) (.quantum :: unlock (.iret :: k))
  obtain ⟨hmem, hn⟩ := hwoken.owner ho
  rw [hnext] at hn
  have hcur' : s'.currentPCB = some m.owner := hwoken.current.trans hcur
  have hn' : (s'.spent m.owner).next m.owner = s'.next m.owner := by
    rw [Sched.next, spent_pcb, if_pos rfl]
    rfl
  have hrest : Settles step IsOpen (Landed (s'.spent m.owner) (R ++ L.filter s.ticked.due) T)
      (m.closed s' 1 1 false (.quantum :: unlock (.iret :: k))) := by
    by_cases hq : ((s'.spent m.owner).pcb m.owner).quantumLeft ≤ 0
    · refine (quiet_quantum m s' (.iret :: k) hcur' hq).settles ?_
      refine settles_schedule (h'.spent m.owner) hcur'
        (fun hc => hmem (mem_append_left _ (mem_append_left _ hc))) ?_ (.iret hk)
      exact fun _ => ⟨hmem, hn'.trans hn⟩
    · refine (quiet_quantum_left m s' (.iret :: k) hcur' hq).settles (.here rfl ?_)
      refine landed_opened (h'.spent m.owner) (.runs hcur' hmem (hn'.trans hn) (.iret hk)) ?_
      intro c hc hL
      cases hcur'.symm.trans hc
      exact hmem (mem_append_left _ (mem_append_right _ hL))
  refine ((quiet_tick m s k 0).trans hquiet).settles (hrest.imp fun b hb => ?_)
  exact hb.spent.ticked hwoken h.asleep

theorem Resting.head_ne_hlt (h : Resting k) : k.head? ≠ some .hlt := by
  cases h <;> simp [sleepUntil, lockAndPostpone]

/-- **A timer interrupt** that does not find a task dozing. -/
theorem settles_interrupt (h : Sleepers T m) (hdoze : ¬m.Dozes) :
    Settles step IsOpen (Ticked m.sched T) m.interrupt := by
  obtain ⟨R, L, hasleep, hshape, hpost, hflag⟩ := h
  generalize hirq : m.sched.irqDisableCounter = i at hshape
  generalize hcode : m.code = k at hshape
  cases hshape with
  | runs hcur ho hnext hk =>
    rw [interrupt_eq hirq hpost hflag (.inr ⟨hcode, hk.head_ne_hlt⟩)]
    exact settles_tick hasleep hcur ho hnext hk
  | dozes hcur _ hst => exact absurd ⟨_, hcur, hst⟩ hdoze
  | idles hcur hst hk =>
    rw [interrupt_eq hirq hpost hflag (.inr ⟨hcode, by simp⟩)]
    exact settles_tick_idle hasleep hcur hst hk
  | halts hcur hst hk =>
    rw [interrupt_eq hirq hpost hflag (.inl hcode)]
    exact settles_tick_idle hasleep hcur hst hk

/-! ### Statements with interrupts enabled -/

/-- Where a statement leads: those that sleep are left alone, and do not run. -/
structure Undisturbed (s : Sched) (T : List PcbPtr) (m : Machine) : Prop where
  sleepers : Sleepers T m
  counter : m.sched.counter = s.counter
  asleep : ∀ q, (s.pcb q).state = .sleeping →
    (m.sched.pcb q).state = .sleeping ∧ (m.sched.pcb q).sleepUntil = (s.pcb q).sleepUntil ∧
      m.sched.currentPCB ≠ some q

theorem Landed.undisturbed (h : Landed s R T m) : Undisturbed s T m := by
  refine ⟨h.sleepers, h.counter, fun q hq => ?_⟩
  obtain ⟨hst, hw⟩ := h.asleep q hq
  exact ⟨hst, hw, fun hc => h.calm ⟨q, hc, hst⟩⟩

/-- The variables when `SleepUntil` has put the task `c` on the sleeping list. -/
def Sched.doze (s : Sched) (c : PcbPtr) (w : UInt32) : Sched :=
  (s.modify c fun b => { b with sleepUntil := w }).addSleeping c

theorem doze_pcb (s : Sched) (c q : PcbPtr) (w : UInt32) :
    ((s.doze c w).pcb q).state = (if q = c then .sleeping else (s.pcb q).state) ∧
      ((s.doze c w).pcb q).sleepUntil = if q = c then w else (s.pcb q).sleepUntil := by
  rw [Sched.doze, Sched.addSleeping_pcb, Sched.modify_pcb]
  split
  · exact ⟨rfl, rfl⟩
  · exact ⟨rfl, rfl⟩

theorem doze_eq (s : Sched) (c : PcbPtr) (w : UInt32) :
    (s.doze c w).currentPCB = s.currentPCB ∧ (s.doze c w).counter = s.counter := by
  rw [Sched.doze, Sched.addSleeping_eq]
  exact ⟨rfl, rfl⟩

theorem Asleep.doze (h : Asleep s saved o R L T) (ho : o ∉ R ++ L ++ T) (hnext : s.next o = none)
    (w : UInt32) : Asleep (s.doze o w) saved o R (L ++ [o]) T := by
  have hl1 : Lists (s.modify o fun b => { b with sleepUntil := w }) R L T :=
    h.lists.modify o fun _ => rfl
  have hn1 : (s.modify o fun b => { b with sleepUntil := w }).next o = none := by
    rw [Sched.next, Sched.modify_self]
    exact hnext
  refine ⟨hl1.addSleeping ho hn1, fun q hq => ?_, fun q hq hqo => ?_⟩
  · rw [(doze_pcb s o q w).1] at hq
    split at hq
    · next hqo => simp [hqo]
    · exact mem_append_left _ (h.asleep q hq)
  · refine h.parked q ?_ hqo
    simpa [hqo] using hq

/-- `SleepUntil`, up to where the task dozes. -/
theorem settles_sleep (h : Asleep s m.saved m.owner R L T) (hcur : s.currentPCB = some m.owner)
    (ho : m.owner ∉ R ++ L ++ T) (hnext : s.next m.owner = none) (w : UInt32) :
    Settles step IsOpen (Undisturbed s T)
      (m.closed s 1 0 false (.postpone :: .sleepTest w :: [.user])) := by
  have hL : m.owner ∉ L := fun hc => ho (by simp [hc])
  by_cases hw : w < s.counter
  · refine (quiet_sleep_passed m s [.user] hw).settles (.here rfl ?_)
    refine (landed_opened h (.runs hcur ho hnext .user) fun c hc => ?_).undisturbed
    rwa [← some.inj (hcur.symm.trans hc)]
  · obtain ⟨hcur', hcounter⟩ := doze_eq s m.owner w
    have hself := doze_pcb s m.owner m.owner w
    rw [if_pos rfl] at hself
    refine (quiet_sleep m s [.user] hcur hw).settles
      (.here rfl ⟨sleepers_opened (h.doze ho hnext w)
        (.dozes (hcur'.trans hcur) (by simp) hself.1), hcounter, fun q hq => ?_⟩)
    -- the task that falls asleep is not one that sleeps already
    have hqo : q ≠ m.owner := by
      rintro rfl
      exact hL (h.asleep _ hq)
    have hother := doze_pcb s m.owner q w
    rw [if_neg hqo, if_neg hqo] at hother
    refine ⟨hother.1.trans hq, hother.2, fun hc => hqo ?_⟩
    exact some.inj (hc.symm.trans (hcur'.trans hcur))

/-- `BlockProcess` in `SleepUntil`. -/
theorem settles_block (h : Asleep s m.saved m.owner R L T)
    (hcur : s.currentPCB = some m.owner) (ho : m.owner ∈ L) :
    Settles step IsOpen (Landed s R T) (m.closed s 1 0 false (.postpone :: .setState .sleeping ::
      .schedule :: unlock [.user])) := by
  have hpcb : ∀ q, (s.pcb q).state = .sleeping →
      ((s.modify m.owner fun b => { b with state := .sleeping }).pcb q).state = .sleeping ∧
      ((s.modify m.owner fun b => { b with state := .sleeping }).pcb q).sleepUntil =
        (s.pcb q).sleepUntil := by
    intro q hq
    rw [Sched.modify_pcb]
    split
    · next hqo => exact ⟨rfl, by rw [hqo]⟩
    · exact ⟨hq, rfl⟩
  refine (quiet_block m s [.user] hcur .sleeping).settles
    (.imp (settles_schedule ⟨h.lists.modify m.owner fun _ => rfl, ?_, h.parked⟩
      hcur (fun hc => h.lists.ready_notMem_sleep _ hc ho) ?_ .user)
      fun b hb => hb.of rfl hpcb fun q hq => .inl hq)
  · intro q hq
    rw [Sched.modify_pcb] at hq
    split at hq
    · next hqo => rw [hqo]; exact ho
    · exact h.asleep q hq
  · intro hc
    rw [Sched.modify_self] at hc
    cases hc

theorem settles_idleCheck (h : Asleep s m.saved m.owner R L T)
    (hcur : s.currentPCB = none) (hst : (s.pcb m.owner).state ≠ .running) (hk : Resting k)
    (hs : step (m.opened s 1 (.idleCheck m.owner :: .returned :: .unlockScheduler :: k)) =
      some m') : Settles step IsOpen (Undisturbed s T) m' := by
  cases R with
  | nil =>
    have hstep := step_idleCheck_none m s (.returned :: .unlockScheduler :: k) m.owner
      h.lists.ready.chain
    cases hstep.symm.trans hs
    exact .here rfl (landed_opened h (.halts hcur hst hk)
      fun c hc => by cases hcur.symm.trans hc).undisturbed
  | cons n R =>
    have h' : Asleep { s with currentPCB := some m.owner } m.saved m.owner (n :: R) L T :=
      ⟨⟨h.lists.ready, h.lists.sleep, h.lists.term, h.lists.nodup⟩, h.asleep, h.parked⟩
    by_cases hne : n = m.owner
    · -- the task that went idle returns, without a switch
      subst hne
      have hstep := step_idleCheck_self m s (.returned :: .unlockScheduler :: k) m.owner
        h.lists.head_eq
      cases hstep.symm.trans hs
      obtain ⟨hlists, hnext⟩ := h'.lists.take
      have hnd : m.owner ∉ R ++ L ++ T := (nodup_cons.mp h.lists.nodup).1
      refine (quiet_step rfl (quiet_unlock m _ k)).settles (.here rfl ?_)
      have hland : Landed (Sched.take { s with currentPCB := some m.owner } m.owner) R T
          (m.opened (Sched.take { s with currentPCB := some m.owner } m.owner) 0 k) := by
        refine landed_opened ⟨hlists, ?_, ?_⟩ (.runs rfl hnd hnext hk) ?_
        · intro q hq
          rw [take_state] at hq
          exact h.asleep q hq
        · exact fun q hq => h.parked q (mem_cons_of_mem _ hq)
        · intro c hc hL
          cases hc
          exact hnd (by simp [hL])
      refine Landed.undisturbed (hland.of rfl (fun q hq => ?_) fun q hq => .inl hq)
      rw [take_pcb]
      split
      · exact ⟨hq, rfl⟩
      · exact ⟨hq, rfl⟩
    · have hstep := step_idleCheck_switch m s (.returned :: .unlockScheduler :: k) m.owner
        h.lists.head_eq hne
      cases hstep.symm.trans hs
      refine (quiet_switchToTask m _ n rfl).settles
        (.imp (settles_switched h' hne (fun hc => absurd hc hst) ⟨k, hk, .inr rfl⟩) fun b hb => ?_)
      exact Landed.undisturbed (hb.of rfl (fun q hq => ⟨hq, rfl⟩) fun q hq => .inl hq)

/-- **A statement** made with interrupts enabled. -/
theorem settles_step (ho : IsOpen m) (h : Sleepers T m)
    (hs : step m = some m') : Settles step IsOpen (Undisturbed m.sched T) m' := by
  obtain ⟨R, L, hasleep, hshape, hpost, hflag⟩ := h
  have hself := Sched.locked_self hpost hflag
  have hopen := Machine.opened_self ho hpost hflag
  generalize hirq : m.sched.irqDisableCounter = i at hshape hself hopen
  generalize hcode : m.code = k at hshape hopen
  cases hshape with
  | runs hcur hmem hnext hk =>
    cases hk with
    | user => rw [step, hcode] at hs; cases hs
    | sleep w =>
      have hlock := step_lock m m.sched _ hself.symm hcode
      cases hlock.symm.trans hs
      exact settles_sleep hasleep hcur hmem hnext w
    | iret hk =>
      rw [step, hcode] at hs
      cases hs
      refine .here rfl ⟨⟨R, L, hasleep, ?_, hpost, hflag⟩, rfl, fun q hq => ⟨hq, rfl, ?_⟩⟩
      · show Shape m.sched m.owner R L T m.sched.irqDisableCounter _
        rw [hirq]
        exact .runs hcur hmem hnext hk
      · exact fun hc => hmem (some.inj (hcur.symm.trans hc) ▸ by simp [hasleep.asleep q hq])
  | dozes hcur hmem _ =>
    have hlock := step_lock m m.sched _ hself.symm hcode
    cases hlock.symm.trans hs
    exact (settles_block hasleep hcur hmem).imp fun b hb => hb.undisturbed
  | idles hcur hst hk =>
    rw [← hopen] at hs
    exact settles_idleCheck hasleep hcur hst hk hs
  | halts hcur hst hk => rw [step, hcode] at hs; cases hs

/-! ### Runs keep the invariant -/

/-- Tasks run, and none of them sleeps. -/
structure SleepStart (m : Machine) (R T : List PcbPtr) : Prop where
  lists : Lists m.sched R [] T
  awake : ∀ q, (m.sched.pcb q).state ≠ .sleeping
  parked : ∀ q ∈ R, Parked (m.saved q)
  current : m.sched.currentPCB = some m.owner
  owner : m.owner ∉ R ++ T
  next : m.sched.next m.owner = none
  code : m.code = [.user]
  irq : m.sched.irqDisableCounter = 0
  postpone : m.sched.postponeTaskCounter = 0
  flag : m.sched.taskChangePostponedFlag = false
  interrupts : m.interrupts = true

theorem SleepStart.sleepers (h : SleepStart m R T) : Sleepers T m := by
  refine ⟨R, [], ⟨h.lists, fun q hq => absurd hq (h.awake q), ?_⟩, ?_, h.postpone, h.flag⟩
  · intro q hq _
    rw [append_nil] at hq
    exact h.parked q hq
  · rw [h.irq, h.code]
    refine .runs h.current ?_ h.next .user
    rw [append_nil]
    exact h.owner

/-- The task's own code is where `SleepUntil` can be called. -/
theorem Shape.of_user {k' : List Op} (h : Shape s o R L T i k) (hk : k = .user :: k') :
    k = [.user] ∧ i = 0 ∧ s.currentPCB = some o ∧ o ∉ R ++ L ++ T ∧ s.next o = none := by
  cases h with
  | runs hcur hmem hnext hr =>
    cases hr with
    | user => exact ⟨rfl, rfl, hcur, hmem, hnext⟩
    | sleep | iret => cases hk
  | dozes | idles | halts => cases hk

/-- **A call** of `SleepUntil`. -/
theorem Sleepers.call (h : Sleepers T m) (hcode : m.code = .user :: k)
    (w : UInt32) : Undisturbed m.sched T (m.call (.sleep w)) := by
  obtain ⟨R, L, hasleep, hshape, hpost, hflag⟩ := h
  obtain ⟨hcode', hirq, hcur, hmem, hnext⟩ := hshape.of_user hcode
  refine ⟨⟨R, L, hasleep, ?_, hpost, hflag⟩, rfl, fun q hq => ⟨hq, rfl, fun hc => ?_⟩⟩
  · show Shape m.sched m.owner R L T m.sched.irqDisableCounter (sleepUntil w ++ m.code)
    rw [hirq, hcode']
    exact .runs hcur hmem hnext (.sleep w)
  · exact hmem (some.inj (hcur.symm.trans hc) ▸ by simp [hasleep.asleep q hq])

theorem settles_of_sleepRun (h0 : SleepStart m₀ R T)
    (h : SleepRun (fun m => ¬m.Dozes) m₀ m) : Settles step IsOpen (Sleepers T) m := by
  refine settles_of_reachable
    (fun _ _ ho hp hs => (settles_step ho hp hs).imp fun _ hb => hb.sleepers) ?_ ?_
    (.here h0.interrupts h0.sleepers) h
  · intro a b ho hp hab
    cases hab with
    | interrupt _ hdoze => exact (settles_interrupt hp hdoze).imp fun _ hb => hb.sleepers
    | @sleep w k hcode => exact .here ho (hp.call hcode w).sleepers
  · intro a b hab
    cases hab with
    | interrupt hint _ => exact .inl hint
    | sleep hcode => exact .inr (by rw [step, hcode]; rfl)

theorem Sleepers.wakes (h : Sleepers T m) (hq : (m.sched.pcb q).state = .sleeping)
    (hdue : (m.sched.pcb q).sleepUntil ≤ m.sched.counter + 1 + 1) :
    ∃ m' k R', QuietTo m.interrupt m' ∧ m'.code = .quantum :: k ∧
      Queue m'.sched.next m'.sched.readyListHead m'.sched.readyListTail R' ∧ q ∈ R' := by
  obtain ⟨R, L, hasleep, hshape, hpost, hflag⟩ := h
  obtain ⟨i, k, hi, hint⟩ : ∃ i k, i + 1 ≠ 0 ∧
      m.interrupt = m.closed m.sched i 0 false (timerHandler ++ k) := by
    generalize hirq : m.sched.irqDisableCounter = i at hshape
    generalize hcode : m.code = k at hshape
    cases hshape with
    | runs _ _ _ hk =>
      exact ⟨0, _, by decide, interrupt_eq hirq hpost hflag (.inr ⟨hcode, hk.head_ne_hlt⟩)⟩
    | dozes =>
      exact ⟨0, _, by decide, interrupt_eq hirq hpost hflag (.inr ⟨hcode, by decide⟩)⟩
    | idles => exact ⟨1, _, by decide, interrupt_eq hirq hpost hflag (.inr ⟨hcode, by simp⟩)⟩
    | halts => exact ⟨1, _, by decide, interrupt_eq hirq hpost hflag (.inl hcode)⟩
  obtain ⟨s', hquiet, h', -⟩ := hasleep.wake hi
    (.quantum :: unlock (.iret :: k))
  have hquiet' := (quiet_tick m m.sched k i).trans hquiet
  rw [← hint] at hquiet'
  have hwoken : q ∈ L.filter m.sched.ticked.due :=
    mem_filter.mpr ⟨hasleep.asleep q hq, decide_eq_true hdue⟩
  exact ⟨_, _, _, hquiet', rfl, h'.lists.ready, mem_append_right _ hwoken⟩

end

/-- **No lost wakeups**, if no interrupt is taken while a task dozes: a task that sleeps and is not
current is on the sleeping list, and the interrupt that finds its time come makes it ready. -/
theorem no_lost_wakeup {m₀ m : Machine} {R T : List PcbPtr} (h₀ : SleepStart m₀ R T)
    (h : SleepRun (fun m => ¬m.Dozes) m₀ m) (ho : m.interrupts = true) :
    ∃ L, Queue m.sched.next m.sched.sleepingListHead m.sched.sleepingListTail L ∧
      ∀ q, (m.sched.pcb q).state = .sleeping → m.sched.currentPCB ≠ some q →
        q ∈ L ∧
        ((m.sched.pcb q).sleepUntil ≤ m.sched.counter + 1 + 1 →
          ∃ m' k R', QuietTo m.interrupt m' ∧ m'.code = .quantum :: k ∧
            Queue m'.sched.next m'.sched.readyListHead m'.sched.readyListTail R' ∧ q ∈ R') := by
  have hs : Sleepers T m := (settles_of_sleepRun h₀ h).holds ho
  obtain ⟨R, L, hasleep, -⟩ := id hs
  refine ⟨L, hasleep.lists.sleep, fun q hq _ => ⟨hasleep.asleep q hq, ?_⟩⟩
  exact fun hdue => hs.wakes hq hdue

/-- Two tasks: one runs its own code, and the other is ready. -/
def pairMachine : Machine :=
  { taskMachine with
    sched := (taskMachine.sched.modify 1 fun b => { b with used := 1 }).addReady 1
    saved := Function.update taskMachine.saved 1 newStack }

theorem sleepStart_pairMachine : SleepStart pairMachine [1] [] where
  lists := ⟨⟨⟨rfl, rfl⟩, rfl⟩, ⟨rfl, rfl⟩, ⟨rfl, rfl⟩, by decide⟩
  awake := by
    intro q
    show ((Sched.addReady _ 1).pcb q).state ≠ .sleeping
    rw [Sched.addReady_state]
    split
    · decide
    · next hq =>
      rw [Sched.modify_pcb, if_neg hq]
      show (if q = 0 then _ else _ : Pcb).state ≠ .sleeping
      split <;> simp
  parked := by
    intro q hq
    obtain rfl := mem_singleton.mp hq
    exact ⟨[.user], .user, .inl rfl⟩
  current := rfl
  owner := by decide
  next := rfl
  code := rfl
  irq := rfl
  postpone := rfl
  flag := rfl
  interrupts := rfl

/-- The first task sleeps, and is on the list while the second one runs. -/
theorem no_lost_wakeup_pairMachine : SleepStart pairMachine [1] [] ∧
    ∃ m L, SleepRun (fun m => ¬m.Dozes) pairMachine m ∧ m.interrupts = true ∧
      (m.sched.pcb 0).state = .sleeping ∧ m.sched.currentPCB = some 1 ∧
      Queue m.sched.next m.sched.sleepingListHead m.sched.sleepingListTail L ∧ 0 ∈ L := by
  have hrun : (steps 13 (pairMachine.call (.sleep 2))).map (fun m =>
      (m.interrupts, (m.sched.pcb 0).state, m.sched.currentPCB)) =
      some (true, .sleeping, some 1) := by decide
  obtain ⟨m, hm, hview⟩ := map_eq_some_iff.mp hrun
  obtain ⟨hint, hstate, hcur⟩ : m.interrupts = true ∧ (m.sched.pcb 0).state = .sleeping ∧
      m.sched.currentPCB = some 1 := by simpa using hview
  have hreach : SleepRun (fun m => ¬m.Dozes) pairMachine m :=
    .head (.inr (.sleep rfl)) (sleepRun_steps hm)
  obtain ⟨L, hL, hmem⟩ := no_lost_wakeup sleepStart_pairMachine hreach hint
  refine ⟨sleepStart_pairMachine, m, L, hreach, hint, hstate, hcur, hL, (hmem 0 hstate ?_).1⟩
  rw [hcur]
  decide

/-- An interrupt is taken while the first task dozes: it is made ready, then it blocks, and is not
on the list. -/
theorem lost_wakeup_pairMachine : SleepStart pairMachine [1] [] ∧
    ∃ m, SleepRun (fun _ => True) pairMachine m ∧ m.interrupts = true ∧
      (m.sched.pcb 0).state = .sleeping ∧ m.sched.currentPCB ≠ some 0 ∧
      ¬∃ L, Queue m.sched.next m.sched.sleepingListHead m.sched.sleepingListTail L ∧ 0 ∈ L := by
  have hrun : (run [.call (.sleep 2), .steps 5, .interrupt, .steps 17, .interrupt, .steps 23]
      pairMachine).map (fun m =>
      (m.interrupts, (m.sched.pcb 0).state, m.sched.currentPCB, m.sched.sleepingListHead)) =
      some (true, .sleeping, some 1, none) := by decide
  obtain ⟨m, hm, hview⟩ := map_eq_some_iff.mp hrun
  obtain ⟨hint, hstate, hcur, hhead⟩ : m.interrupts = true ∧
      (m.sched.pcb 0).state = .sleeping ∧ m.sched.currentPCB = some 1 ∧
      m.sched.sleepingListHead = none := by simpa using hview
  have hreach : SleepRun (fun _ => True) pairMachine m := by
    refine sleepRun_of_reachable (reachable_run ?_ hm)
    intro c hc m
    simp only [mem_cons, Event.call.injEq, reduceCtorEq, not_mem_nil, or_false] at hc
    exact ⟨2, hc⟩
  refine ⟨sleepStart_pairMachine, m, hreach, hint, hstate, by rw [hcur]; decide, ?_⟩
  rintro ⟨L, hL, hmem⟩
  rw [hhead] at hL
  rw [hL.chain.eq_nil] at hmem
  cases hmem

end AthenX.Scheduler
