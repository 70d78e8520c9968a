import AthenX.Scheduler.ReadyList

/-!
# The list of terminated tasks

`TerminateProcess` puts the task on the list of terminated tasks, without touching its link, and the
butler frees one of them in each round. The list is a queue since the link of a task that runs is
null, even where the ready list is broken: only the butler can be on that twice, and it does not
terminate. If an interrupt cuts `PcbAlloc`, two tasks may fill in one block, and it is freed while
it is ready.
-/

namespace AthenX.Scheduler

open Linked List

/-- The task that terminates in a move. -/
def Done.terminated (d : Done) : Option PcbPtr :=
  match d.act with
  | .terminate => d.pre.sched.currentPCB
  | _          => none

/-- The block that `PerformButler` passes to `PcbFree` in a move. -/
def Done.freed (d : Done) : Option PcbPtr :=
  match d.act with
  | .butler => d.pre.sched.terminatedListHead
  | _       => none

/-- The tasks that terminated in a run, in order. -/
def terminations (tr : List Done) : List PcbPtr := tr.filterMap Done.terminated

/-- The blocks that were freed in a run, in order. -/
def frees (tr : List Done) : List PcbPtr := tr.filterMap Done.freed

/-- The task is met on the list with this head. -/
def OnList (s : Sched) (head : Option PcbPtr) (t : PcbPtr) : Prop :=
  ∃ l, Seg s.next head l (some t)

/-! ### One move -/

section

variable {d : Done} {loop loop' : Bool} {R T R' T' : List PcbPtr} {t : PcbPtr}

/-- **What a move adds** to the two sequences is what it does to the list. -/
theorem ListStep.pending (hl : ListStep d.pre.sched loop R T d.act loop' R' T')
    (ht : Tasks d.pre.sched loop R T) :
    T ++ d.terminated.toList = d.freed.toList ++ T' := by
  generalize hact : d.act = a at hl
  cases hl with
  | terminate hcur _ => simp [Done.terminated, Done.freed, hact, hcur]
  | free hT _ =>
    have hterm := ht.queues.term.chain
    rw [hT] at hterm
    simp [Done.terminated, Done.freed, hact, hterm.1, hT]
  | pause hT _ =>
    have hterm := ht.queues.term.chain
    rw [hT, chain_nil] at hterm
    simp [Done.terminated, Done.freed, hact, hterm]
  | _ => simp [Done.terminated, Done.freed, hact]

theorem Done.freed_eq_some (hf : d.freed = some t) :
    d.act = .butler ∧ d.pre.sched.terminatedListHead = some t := by
  unfold Done.freed at hf
  split at hf
  · next hact => exact ⟨hact, hf⟩
  · cases hf

theorem ListStep.eq_nil (hl : ListStep d.pre.sched loop R T d.act loop' R' T')
    (ht : Tasks d.pre.sched loop R T) (hact : d.act = .butler) (hf : d.freed = none) :
    T' = [] := by
  have hhead : d.pre.sched.terminatedListHead = none := by
    rwa [Done.freed, hact] at hf
  rw [hact] at hl
  cases hl with
  | free hT _ =>
    have hterm := ht.queues.term.chain
    rw [hT] at hterm
    cases hterm.1.symm.trans hhead
  | pause hT _ => exact hT

theorem Tasks.mem_freed (ht : Tasks d.pre.sched loop R T) (hf : d.freed = some t) : t ∈ T := by
  have hterm := ht.queues.term
  rw [(Done.freed_eq_some hf).2] at hterm
  obtain ⟨T', rfl⟩ := hterm.eq_cons_of_head
  exact mem_cons_self

theorem Tasks.not_sleeping {s : Sched} (ht : Tasks s loop R T) :
    ¬OnList s s.sleepingListHead t := by
  rintro ⟨l, hl⟩
  rw [ht.queues.sleep] at hl
  cases l with
  | nil => cases hl
  | cons b l => cases hl.1

theorem Tasks.freed_off (ht : Tasks d.pre.sched loop R T) (hf : d.freed = some t) :
    d.pre.sched.currentPCB ≠ some t ∧ ¬OnList d.pre.sched d.pre.sched.readyListHead t ∧
      ¬OnList d.pre.sched d.pre.sched.sleepingListHead t := by
  have htT := ht.mem_freed hf
  refine ⟨fun hc => (ht.runs hc).notTerm htT, ?_, ht.not_sleeping⟩
  rintro ⟨l, hl⟩
  exact ht.queues.disjoint t (ht.queues.ready.mem_of_seg hl) htT

theorem Timed.freed_iff {E : Setting} {i : ℤ} {pend : PcbPtr → Option PcbPtr}
    (ht : Timed E d.pre loop R T pend)
    (hsched : d.post.sched = (d.act.atomic d.pre.sched).locked i 0 false) :
    d.freed = some t ↔
      (d.pre.sched.pcb t).used ≠ 0 ∧ (d.post.sched.pcb t).used = 0 := by
  have hpost : (d.post.sched.pcb t).used = ((d.act.atomic d.pre.sched).pcb t).used := by
    rw [hsched]
    rfl
  rw [hpost]
  constructor
  · intro hf
    have htT := ht.rests.tasks.mem_freed hf
    obtain ⟨hact, hhead⟩ := Done.freed_eq_some hf
    refine ⟨ht.live t (.inr htT), ?_⟩
    simp only [hact, Act.atomic, Sched.butlerRound, hhead]
    rw [Sched.freeTerminated_pcb, if_pos rfl]
  · rintro ⟨hused, hzero⟩
    by_contra hf
    refine (ht.times.act (fun _ => ht.live.current) d.act).2 t hused ?_ hzero
    intro hact hhead
    exact hf (by rw [Done.freed, hact]; exact hhead)

end

/-! ### Two runs -/

theorem exists_terminated : ∃ tr m, MoveRun (Guarded Tasked) bootMachine tr m ∧
    m.sched.terminatedListHead = some 1 := by
  have hrun : (runMoves (fun m v => taskedTest m v && uncutTest m v)
      (createMoves 1 ++ [.call .butler, .go, .call .terminate, .go]) bootMachine).map
      (fun r => r.2.sched.terminatedListHead) = some (some 1) := by decide
  obtain ⟨⟨tr, m⟩, hm, hhead⟩ := Option.map_eq_some_iff.mp hrun
  exact ⟨tr, m, moveRun_of_runMoves (guarded_of_test tasked_of_test) hm, hhead⟩

/-- Process 1 is interrupted with block 3 found free, in which process 2 creates one that
terminates. Process 1 takes block 3, too, and the butler frees it. -/
def cutMoves : List Move :=
  createMoves 1 ++ createMoves 2 ++ [.call .butler, .go] ++
    .call .create :: List.replicate 4 .go ++ [.interrupt] ++
    createMoves 3 ++ [.interrupt, .interrupt, .call .terminate, .go, .interrupt] ++
    List.replicate 5 .go ++ [.interrupt, .call .butler, .go]

theorem exists_cut : ∃ tr m, MoveRun Tasked bootMachine tr m ∧ ticks tr = 5 ∧
    (∃ d ∈ tr, d.freed = some 3 ∧ d.pre.sched.readyListHead = some 2 ∧
      d.pre.sched.next 2 = some 3) ∧
    m.sched.readyListHead = some 2 ∧ m.sched.next 2 = some 3 ∧ (m.sched.pcb 3).used = 0 := by
  have hrun : (runMoves taskedTest cutMoves bootMachine).map (fun r => (ticks r.1,
      r.1.getLast?.map fun d => [d.freed, d.pre.sched.readyListHead, d.pre.sched.next 2],
      [r.2.sched.readyListHead, r.2.sched.next 2], (r.2.sched.pcb 3).used)) =
      some (5, some [some 3, some 2, some 3], [some 2, some 3], 0) := by decide +kernel
  obtain ⟨⟨tr, m⟩, hm, hview⟩ := Option.map_eq_some_iff.mp hrun
  obtain ⟨hticks, hlast, hlist, hused⟩ : ticks tr = 5 ∧
      tr.getLast?.map (fun d => [d.freed, d.pre.sched.readyListHead, d.pre.sched.next 2]) =
        some [some 3, some 2, some 3] ∧
      [m.sched.readyListHead, m.sched.next 2] = [some 2, some 3] ∧ (m.sched.pcb 3).used = 0 := by
    simpa only [Prod.mk.injEq] using hview
  obtain ⟨d, hd, hview⟩ := Option.map_eq_some_iff.mp hlast
  obtain ⟨hfreed, hhead, hnext⟩ : d.freed = some 3 ∧ d.pre.sched.readyListHead = some 2 ∧
      d.pre.sched.next 2 = some 3 := by simpa using hview
  obtain ⟨hhead', hnext'⟩ : m.sched.readyListHead = some 2 ∧ m.sched.next 2 = some 3 := by
    simpa using hlist
  exact ⟨tr, m, moveRun_of_runMoves tasked_of_test hm, hticks,
    ⟨d, mem_of_getLast? hd, hfreed, hhead, hnext⟩, hhead', hnext', hused⟩

/-! ### Runs -/

/-- A block is freed when it goes out of use, and its task is neither current, ready nor asleep. -/
def Done.Frees (d : Done) (t : PcbPtr) : Prop :=
  (d.freed = some t ↔ (d.pre.sched.pcb t).used ≠ 0 ∧ (d.post.sched.pcb t).used = 0) ∧
  (d.freed = some t →
    d.pre.sched.currentPCB ≠ some t ∧ ¬OnList d.pre.sched d.pre.sched.readyListHead t ∧
      ¬OnList d.pre.sched d.pre.sched.sleepingListHead t)

theorem pending_of_run {m0 m : Machine} {tr : List Done} (h0 : Boot .butlerLoop m0)
    (h : MoveRun (Guarded Tasked) m0 tr m) :
    ∃ loop R T pend, Timed butlerSetting m loop R T pend ∧
      terminations tr = frees tr ++ T ∧
      (∀ tr' d, tr = tr' ++ [d] → d.act = .butler → d.freed = none → T = []) ∧
      ∀ d ∈ tr, ∀ t, d.Frees t := by
  induction h with
  | nil =>
    refine ⟨false, [], [], _, Boot.timed h0, rfl, fun _ _ _ _ _ => rfl, fun d hd => ?_⟩
    cases hd
  | @snoc tr m m1 m' v _ hok hs hland ih =>
    set d : Done := ⟨m, v, m'⟩ with hd
    obtain ⟨loop, R, T, pend, ht, hpending, -, hfreed⟩ := ih
    obtain ⟨i, loop', R', T', pend', hsched, hlist, ht'⟩ := ht.move hok.1 hok.2 hs hland
    have hlist' : ListStep d.pre.sched loop R T d.act loop' R' T' := hlist
    have htasks : Tasks d.pre.sched loop R T := ht.rests.tasks
    refine ⟨loop', R', T', pend', ht', ?_, ?_, ?_⟩
    · rw [terminations, frees, filterMap_snoc, filterMap_snoc]
      show terminations tr ++ _ = frees tr ++ _ ++ T'
      rw [hpending, append_assoc, hlist'.pending htasks, append_assoc]
    · intro tr' d' heq hact hf
      obtain rfl := singleton_inj.mp (append_inj' heq rfl).2
      exact hlist'.eq_nil htasks hact hf
    · intro d' hd' t
      rcases mem_append.mp hd' with hd' | hd'
      · exact hfreed d' hd' t
      · rw [mem_singleton.mp hd']
        exact ⟨Timed.freed_iff ht hsched, htasks.freed_off⟩

/-- **The list of terminated tasks**, if no interrupt cuts `PcbAlloc`, holds those not yet freed, in
order, and is empty when the butler pauses; the block freed is that of a task neither current, ready
nor asleep. -/
theorem terminated_of_run {m₀ m : Machine} {tr : List Done} (h₀ : Boot .butlerLoop m₀)
    (h : MoveRun (Guarded Tasked) m₀ tr m) :
    (∃ T, Queue m.sched.next m.sched.terminatedListHead m.sched.terminatedListTail T ∧
      terminations tr = frees tr ++ T) ∧
    (∀ tr' d, tr = tr' ++ [d] → d.act = .butler → d.freed = none →
      terminations tr = frees tr) ∧
    ∀ d ∈ tr, ∀ t, d.Frees t := by
  obtain ⟨loop, R, T, pend, ht, hpending, hpause, hfreed⟩ := pending_of_run h₀ h
  refine ⟨⟨T, ht.rests.tasks.queues.term, hpending⟩, ?_, hfreed⟩
  intro tr' d heq hact hf
  rw [hpending, hpause tr' d heq hact hf, append_nil]

/-- A process is created, the butler pauses, the process terminates: it is on the list. -/
theorem terminated_of_run_bootMachine : Boot .butlerLoop bootMachine ∧
    ∃ tr m T, MoveRun (Guarded Tasked) bootMachine tr m ∧
      Queue m.sched.next m.sched.terminatedListHead m.sched.terminatedListTail T ∧
      terminations tr = frees tr ++ T ∧ T.head? = some 1 := by
  obtain ⟨tr, m, htr, hhead⟩ := exists_terminated
  obtain ⟨⟨T, hT, hpending⟩, -⟩ := terminated_of_run boot_bootMachine htr
  refine ⟨boot_bootMachine, tr, m, T, htr, hT, hpending, ?_⟩
  rw [hhead] at hT
  obtain ⟨T', rfl⟩ := hT.eq_cons_of_head
  rfl

/-- After `cutMoves` the butler frees block 3, which is on the ready list. -/
theorem freed_bootMachine : Boot .butlerLoop bootMachine ∧
    ∃ tr m, MoveRun Tasked bootMachine tr m ∧ 2 * ticks tr < 2 ^ 32 - 1 ∧
      ∃ d ∈ tr, ∃ t, d.freed = some t ∧ OnList d.pre.sched d.pre.sched.readyListHead t := by
  obtain ⟨tr, m, htr, hticks, ⟨d, hd, hfreed, hhead, hnext⟩, -⟩ := exists_cut
  exact ⟨boot_bootMachine, tr, m, htr, by omega, d, hd, 3, hfreed, [2], hhead, hnext⟩

/-! ### Blocks in use -/

/-- **The blocks in use**, if no interrupt cuts `PcbAlloc`: a task that is current or on a list has
used some time, and the block that `PcbAlloc` takes has used none. -/
theorem used_of_run {m₀ m : Machine} {tr : List Done} (h₀ : Boot .butlerLoop m₀)
    (h : MoveRun (Guarded Tasked) m₀ tr m) :
    (∀ q, m.sched.currentPCB = some q ∨ OnList m.sched m.sched.readyListHead q ∨
      OnList m.sched m.sched.sleepingListHead q ∨
      OnList m.sched m.sched.terminatedListHead q → (m.sched.pcb q).used ≠ 0) ∧
    ∀ v m₁ p, Guarded Tasked m v → v.start m = some m₁ → v.act m = .take p →
      (m.sched.pcb p).used = 0 := by
  obtain ⟨loop, R, T, pend, ht, -⟩ := pending_of_run h₀ h
  have htasks := ht.rests.tasks
  refine ⟨?_, fun v m₁ p hok hs hp => ?_⟩
  · rintro q (hq | ⟨l, hl⟩ | hq | ⟨l, hl⟩)
    · exact ht.live.current hq
    · exact ht.live q (.inl (.inr (.inr (htasks.queues.ready.mem_of_seg hl))))
    · exact absurd hq htasks.not_sleeping
    · exact ht.live q (.inr (htasks.queues.term.rho.mem_of_seg hl))
  · have hdoes := ht.rests.does hok.1 hok.2 hs
    rw [hp] at hdoes
    cases hdoes with
    | take _ hused => exact hused

/-- The process that terminated is on its list, and its block is in use. -/
theorem used_of_run_bootMachine : Boot .butlerLoop bootMachine ∧
    ∃ tr m, MoveRun (Guarded Tasked) bootMachine tr m ∧
      OnList m.sched m.sched.terminatedListHead 1 ∧ (m.sched.pcb 1).used ≠ 0 := by
  obtain ⟨tr, m, htr, hhead⟩ := exists_terminated
  have hon : OnList m.sched m.sched.terminatedListHead 1 := ⟨[], hhead⟩
  exact ⟨boot_bootMachine, tr, m, htr, hon,
    (used_of_run boot_bootMachine htr).1 1 (.inr (.inr (.inr hon)))⟩

/-- After the moves of `cutMoves` block 3 is free, and on the ready list. -/
theorem unused_bootMachine : Boot .butlerLoop bootMachine ∧
    ∃ tr m, MoveRun Tasked bootMachine tr m ∧
      OnList m.sched m.sched.readyListHead 3 ∧ (m.sched.pcb 3).used = 0 := by
  obtain ⟨tr, m, htr, -, -, hhead, hnext, hused⟩ := exists_cut
  exact ⟨boot_bootMachine, tr, m, htr, ⟨[2], hhead, hnext⟩, hused⟩

end AthenX.Scheduler
