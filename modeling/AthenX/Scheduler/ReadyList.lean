import AthenX.Scheduler.Times

/-!
# The ready list

Whenever interrupts are enabled, the ready list should hold the tasks that are `READY`, each once,
with `readyListTail` the last one. `TerminateProcess` breaks it if the butler is ready already, and
so does an interrupt between the test and the store of `PcbAlloc`. `Orderly` excludes both.
-/

namespace AthenX.Scheduler

open Linked Settling List

/-- The calls of `CreateProcess`, `TerminateProcess` and the butler. -/
def TaskCall (c : Call) : Prop := c = .create ∨ c = .terminate ∨ c = .butler

instance : DecidablePred TaskCall := fun c =>
  inferInstanceAs (Decidable (c = .create ∨ c = .terminate ∨ c = .butler))

/-- A move is a call of these, if it is a call. -/
def Tasked (_ : Machine) (v : Move) : Prop := ∀ c, v = .call c → TaskCall c

/-- The same, as a test. -/
def taskedTest (_ : Machine) : Move → Bool
  | .call c => decide (TaskCall c)
  | _       => true

theorem tasked_of_test (m : Machine) (v : Move) (h : taskedTest m v = true) : Tasked m v := by
  rintro c rfl
  exact of_decide_eq_true h

/-- Runs of these calls, with `PerformButler` in the first task. -/
def butlerSetting : Setting :=
  ⟨.butlerLoop, TaskCall, Or.inr rfl, fun _ hc => hc, fun _ => rfl⟩

/-- No interrupt comes between the test and the store of `PcbAlloc`. -/
def Uncut (m : Machine) (v : Move) : Prop :=
  v = .interrupt → ∀ p k, m.code ≠ .pcbTake p :: k

/-- The same, as a test. -/
def uncutTest (m : Machine) (v : Move) : Bool :=
  match v, m.code with
  | .interrupt, .pcbTake _ :: _ => false
  | _, _                        => true

theorem uncut_of_test (m : Machine) (v : Move) (h : uncutTest m v = true) : Uncut m v := by
  rintro rfl p k hcode
  simp [uncutTest, hcode] at h

/-- The moves that `ok` allows, with no interrupt in the middle of `PcbAlloc`. -/
def Guarded (ok : Machine → Move → Prop) (m : Machine) (v : Move) : Prop := ok m v ∧ Uncut m v

theorem guarded_of_test {ok : Machine → Move → Prop} {okb : Machine → Move → Bool}
    (hok : ∀ m v, okb m v = true → ok m v) (m : Machine) (v : Move)
    (h : (okb m v && uncutTest m v) = true) : Guarded ok m v := by
  rw [Bool.and_eq_true] at h
  exact ⟨hok m v h.1, uncut_of_test m v h.2⟩

/-- `PcbAlloc` is not cut, and nobody terminates while the butler is ready. -/
structure Orderly (m : Machine) (v : Move) : Prop where
  calls : Tasked m v
  uncut : Uncut m v
  terminate : v.act m = .terminate → (m.sched.pcb m.sched.butler).state ≠ .ready

/-- The tasks that are `READY` are those of `R`. -/
def ReadyIs (s : Sched) (R : List PcbPtr) : Prop := ∀ q, (s.pcb q).state = .ready ↔ q ∈ R

section

variable {s : Sched} {R T : List PcbPtr} {c n : PcbPtr}

theorem ReadyIs.congr {s' : Sched} (h : ReadyIs s R)
    (hs : ∀ q, (s'.pcb q).state = (s.pcb q).state) : ReadyIs s' R := by
  intro q
  rw [hs]
  exact h q

theorem ReadyIs.spent (h : ReadyIs s R) (c : PcbPtr) : ReadyIs (s.ticked.spent c) R := by
  refine h.congr fun q => ?_
  rw [spent_pcb]
  split <;> rfl

theorem ReadyIs.addReady (h : ReadyIs s R) (p : PcbPtr) : ReadyIs (s.addReady p) (R ++ [p]) := by
  intro q
  rw [Sched.addReady_state]
  by_cases hq : q = p
  · simp [hq]
  · rw [if_neg hq]
    simp [hq, h q]

theorem dispatch_eq_switched (hq : Queues s false (n :: R) T) (hcur : s.currentPCB = some c) :
    s.dispatch = s.switched c n := by
  simp [Sched.dispatch, hcur, hq.ready.head_eq]

/-- `Schedule`, called by a task that runs. -/
theorem ReadyIs.dispatch_running (h : ReadyIs s R) (hq : Queues s false R T)
    (hcur : s.currentPCB = some c) (hst : (s.pcb c).state = .running) :
    (rotated false c R).1 = false ∧ ReadyIs s.dispatch (rotated false c R).2 := by
  have hcR : c ∉ R := by
    intro hm
    rw [(h c).mpr hm] at hst
    cases hst
  cases R with
  | nil =>
    have hd : s.dispatch = s := by
      simp [Sched.dispatch, hcur, hq.ready.head_nil, hst]
    rw [hd]
    exact ⟨rfl, h⟩
  | cons n R =>
    have hd := dispatch_eq_switched hq hcur
    rw [mem_cons, not_or] at hcR
    have hnR := (nodup_cons.mp hq.ready.nodup).1
    have hlast : R.getLast? ≠ some c := fun hl => hcR.2 (mem_of_getLast? hl)
    refine ⟨decide_eq_false hlast, ?_⟩
    show ReadyIs s.dispatch (ahead R c ++ [c])
    rw [ahead_of_notMem hcR.2, hd]
    intro q
    rw [switched_state]
    by_cases hqn : q = n
    · subst hqn
      have hqc : q ≠ c := fun hc => hcR.1 hc.symm
      simp [hnR, hqc]
    · rw [if_neg hqn]
      by_cases hqc : q = c
      · rw [if_pos ⟨hqc, hst⟩]
        simp [hqc]
      · rw [if_neg fun hc => hqc hc.1, h q]
        simp [hqn, hqc]

/-- `Schedule`, called by a task that does not run any more. -/
theorem ReadyIs.dispatch_blocked (h : ReadyIs s R) (hq : Queues s false R T)
    (hcur : s.currentPCB = some c) (hst : (s.pcb c).state ≠ .running) :
    (popped false R).1 = false ∧ ReadyIs s.dispatch (popped false R).2 := by
  cases R with
  | nil =>
    have hd : s.dispatch = { s with currentPCB := none } := by
      simp [Sched.dispatch, hcur, hq.ready.head_nil, hst]
    rw [hd]
    exact ⟨rfl, h⟩
  | cons n R =>
    have hd := dispatch_eq_switched hq hcur
    have hnR := (nodup_cons.mp hq.ready.nodup).1
    refine ⟨rfl, ?_⟩
    show ReadyIs s.dispatch R
    rw [hd]
    intro q
    rw [switched_state]
    by_cases hqn : q = n
    · subst hqn
      simp [hnR]
    · rw [if_neg hqn, if_neg fun hc => hst hc.2, h q]
      simp [hqn]

/-- **Any function keeps the ready list**, but for `TerminateProcess` with the butler ready. -/
theorem ReadyIs.act {a : Act} {loop' : Bool} {R' T' : List PcbPtr} (h : ReadyIs s R)
    (ht : Tasks s false R T) (hb : a = .terminate → s.butler ∉ R)
    (hl : ListStep s false R T a loop' R' T') : loop' = false ∧ ReadyIs (a.atomic s) R' := by
  -- a task that runs is not ready
  have hrun : ∀ {c}, s.currentPCB = some c → c ∉ R := by
    intro c hc hm
    have hst := (ht.runs hc).state
    rw [(h c).mpr hm] at hst
    cases hst
  cases hl with
  | skip => exact ⟨rfl, h⟩
  | take p =>
    refine ⟨rfl, h.congr fun q => ?_⟩
    show ((s.taken p).pcb q).state = _
    rw [Sched.taken_pcb]
    split <;> rfl
  | fill p =>
    refine ⟨rfl, h.congr fun q => ?_⟩
    show ((s.filled p).pcb q).state = _
    rw [Sched.filled_pcb]
    split <;> rfl
  | @add p hf => exact ⟨rfl, h.addReady p⟩
  | idle hcur =>
    refine ⟨rfl, ?_⟩
    simp only [Act.atomic, Sched.tick, hcur]
    exact h
  | left hcur hq =>
    refine ⟨rfl, ?_⟩
    simp only [Act.atomic, Sched.tick, hcur, hq]
    exact h.spent _
  | @tick c hcur hq =>
    simp only [Act.atomic, Sched.tick, hcur, hq]
    obtain ⟨hqueues, hruns⟩ := ht.spent hcur
    exact (h.spent c).dispatch_running hqueues hcur hruns.state
  | @terminate c hcur hne =>
    have hbR := hb rfl
    have hlast : R.getLast? ≠ some s.butler := fun hl => hbR (mem_of_getLast? hl)
    obtain ⟨hqueues, hcur', hst⟩ := ht.terminated hcur hne
    simp only [Act.atomic, Sched.terminate, hcur]
    rw [decide_eq_false hlast, ahead_of_notMem hbR] at hqueues ⊢
    have hready : ReadyIs (s.terminated c) (R ++ [s.butler]) := by
      intro q
      rw [Sched.terminated_pcb]
      by_cases hqb : q = s.butler
      · simp [hqb]
      · rw [if_neg hqb]
        by_cases hqc : q = c
        · have hqR : q ∉ R := hqc ▸ hrun hcur
          rw [if_pos hqc]
          simp [hqR, hqb]
        · rw [if_neg hqc, h q]
          simp [hqb]
    exact hready.dispatch_blocked hqueues hcur' (by rw [hst]; decide)
  | @free t T' hT hcur =>
    refine ⟨rfl, ?_⟩
    have hhead : s.terminatedListHead = some t := by
      have hterm := ht.queues.term.chain
      rw [hT] at hterm
      exact hterm.1
    simp only [Act.atomic, Sched.butlerRound, hhead]
    refine h.congr fun q => ?_
    rw [Sched.freeTerminated_pcb]
    split <;> rfl
  | pause hT hcur =>
    have hhead : s.terminatedListHead = none := by
      have hterm := ht.queues.term.chain
      rw [hT] at hterm
      exact chain_nil.mp hterm
    simp only [Act.atomic, Sched.butlerRound, hhead, hcur]
    have hq : Queues (s.paused s.butler) false R T := ht.queues.modify s.butler fun _ => rfl
    have hst : ((s.paused s.butler).pcb s.butler).state = .paused := by
      rw [Sched.paused_pcb, if_pos rfl]
    have hready : ReadyIs (s.paused s.butler) R := by
      intro q
      rw [Sched.paused_pcb]
      by_cases hqb : q = s.butler
      · have hqR : q ∉ R := hqb ▸ hrun hcur
        rw [if_pos hqb]
        simp [hqR]
      · rw [if_neg hqb]
        exact h q
    exact hready.dispatch_blocked hq hcur (by rw [hst]; decide)

end

/-! ### Orderly runs -/

theorem Boot.readyIs {h : Op} {m : Machine} (hb : Boot h m) : ReadyIs m.sched [] := by
  intro q
  obtain ⟨s, hs, hzero⟩ := hb.sched
  rw [hs]
  show (if q = 0 then _ else _ : Pcb).state = .ready ↔ _
  split <;> simp [hzero]

theorem readyIs_of_run {m0 m : Machine} {tr : List Done} (h0 : Boot .butlerLoop m0)
    (h : MoveRun Orderly m0 tr m) :
    ∃ R T pend, Timed butlerSetting m false R T pend ∧ ReadyIs m.sched R := by
  induction h with
  | nil => exact ⟨[], [], _, Boot.timed h0, h0.readyIs⟩
  | @snoc tr m m1 m' v _ hok hs hland ih =>
    obtain ⟨R, T, pend, htimed, hready⟩ := ih
    have hbutler : v.act m = .terminate → m.sched.butler ∉ R :=
      fun ha hm => hok.terminate ha ((hready _).mpr hm)
    obtain ⟨i, loop', R', T', pend', hsched, hlist, htimed'⟩ :=
      htimed.move hok.calls hok.uncut hs hland
    obtain ⟨rfl, hready'⟩ := hready.act htimed.rests.tasks hbutler hlist
    refine ⟨R', T', pend', htimed', ?_⟩
    rw [hsched]
    exact hready'

/-- **The ready list**, in every state of a run of orderly moves, has distinct tasks, ends with
`readyListTail`, and holds the tasks that are `READY`. -/
theorem readyList_of_run {m₀ m : Machine} {tr : List Done} (h₀ : Boot .butlerLoop m₀)
    (h : MoveRun Orderly m₀ tr m) :
    ∃ R, Queue m.sched.next m.sched.readyListHead m.sched.readyListTail R ∧ R.Nodup ∧
      ∀ q, (m.sched.pcb q).state = .ready ↔ q ∈ R := by
  obtain ⟨R, T, pend, htimed, hready⟩ := readyIs_of_run h₀ h
  have hqueues := htimed.rests.tasks.queues
  exact ⟨R, hqueues.ready.queue, hqueues.ready.nodup, hready⟩

theorem boot_bootMachine : Boot .butlerLoop bootMachine where
  sched := ⟨_, rfl, fun _ => rfl⟩
  irq := rfl
  postpone := rfl
  flag := rfl
  interrupts := rfl
  owner := rfl
  code := rfl

/-- A test for orderly moves. -/
def orderlyTest (m : Machine) (v : Move) : Bool :=
  taskedTest m v && uncutTest m v &&
    decide (v.act m = .terminate → (m.sched.pcb m.sched.butler).state ≠ .ready)

theorem orderly_of_test (m : Machine) (v : Move) (h : orderlyTest m v = true) : Orderly m v := by
  unfold orderlyTest at h
  rw [Bool.and_eq_true, Bool.and_eq_true] at h
  obtain ⟨⟨hcalls, huncut⟩, hterminate⟩ := h
  exact ⟨tasked_of_test m v hcalls, uncut_of_test m v huncut, of_decide_eq_true hterminate⟩

/-- A process is created, and is on the ready list. -/
theorem readyList_of_run_bootMachine : Boot .butlerLoop bootMachine ∧
    ∃ tr m R, MoveRun Orderly bootMachine tr m ∧
      Queue m.sched.next m.sched.readyListHead m.sched.readyListTail R ∧ 1 ∈ R := by
  have hrun : (runMoves orderlyTest (createMoves 1) bootMachine).map
      (fun r => (r.2.sched.pcb 1).state) = some .ready := by decide
  obtain ⟨⟨tr, m⟩, hm, hstate⟩ := Option.map_eq_some_iff.mp hrun
  have hreach : MoveRun Orderly bootMachine tr m := moveRun_of_runMoves orderly_of_test hm
  obtain ⟨R, hR, -, hready⟩ := readyList_of_run boot_bootMachine hreach
  exact ⟨boot_bootMachine, tr, m, R, hreach, hR, (hready 1).mp hstate⟩

/-- Two processes terminate, which makes the butler ready twice: it runs, and is on the list as
well. -/
theorem readyList_bootMachine : Boot .butlerLoop bootMachine ∧
    ∃ tr m, MoveRun Tasked bootMachine tr m ∧
      ¬∃ R, Queue m.sched.next m.sched.readyListHead m.sched.readyListTail R ∧ R.Nodup ∧
        ∀ q, (m.sched.pcb q).state = .ready ↔ q ∈ R := by
  have hrun : (runMoves taskedTest (createMoves 1 ++ createMoves 2 ++ [.call .butler, .go] ++
      [.call .terminate, .go] ++ [.call .terminate, .go]) bootMachine).map
      (fun r => ((r.2.sched.pcb 0).state, r.2.sched.readyListHead)) =
      some (.running, some 0) := by decide
  obtain ⟨⟨tr, m⟩, hm, hview⟩ := Option.map_eq_some_iff.mp hrun
  obtain ⟨hstate, hhead⟩ : (m.sched.pcb 0).state = .running ∧
      m.sched.readyListHead = some 0 := by simpa using hview
  refine ⟨boot_bootMachine, tr, m, moveRun_of_runMoves tasked_of_test hm, ?_⟩
  rintro ⟨R, hR, -, hready⟩
  rw [hhead] at hR
  obtain ⟨R', rfl⟩ := hR.eq_cons_of_head
  have hready0 := (hready 0).mpr mem_cons_self
  rw [hstate] at hready0
  cases hready0

end AthenX.Scheduler
