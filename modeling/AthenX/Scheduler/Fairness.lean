import AthenX.Lib.RoundRobin
import AthenX.Scheduler.ReadyList

/-!
# Fairness

In a run of `CreateProcess` and timer interrupts alone no task blocks, so there is always one that
runs, and every interrupt ends its time slice, `TIMESLICE` or one used up. Such a run is a round
robin of `AthenX.Lib.RoundRobin`, as long as no interrupt comes in the middle of `PcbAlloc`.
-/

namespace AthenX.Scheduler

open Linked List Option

/-- In runs in which no task blocks, the only calls are those of `CreateProcess`. -/
def Unblocked (_ : Machine) (v : Move) : Prop := ∀ c, v = .call c → c = .create

/-- The same, as a test. -/
def unblockedTest (_ : Machine) (v : Move) : Bool :=
  match v with
  | .call c => decide (c = .create)
  | _       => true

theorem unblocked_of_test (m : Machine) (v : Move) (h : unblockedTest m v = true) :
    Unblocked m v := by
  rintro c rfl
  exact of_decide_eq_true h

/-- Runs of `CreateProcess`, with `h` in the first task. -/
def createSetting (h : Op) (hw : h = .user ∨ h = .butlerLoop) : Setting :=
  ⟨h, (· = .create), hw, fun _ hc => Or.inl hc, fun hc => by cases hc⟩

/-- The event of the round robin that a function is. -/
def Act.event : Act → Option (RoundRobin.Event PcbPtr)
  | .add p                                           => some (.arrive p)
  | .tick                                            => some .turn
  | .skip | .take _ | .fill _ | .terminate | .butler => none

/-- The event that a move is. -/
def Done.event (d : Done) : Option (RoundRobin.Event PcbPtr) := d.act.event

/-- The current tasks after each interrupt of a run, in order. -/
def turns (tr : List Done) : List (Option PcbPtr) :=
  (tr.filter fun d => d.act = .tick).map fun d => d.post.sched.currentPCB

theorem length_turns (tr : List Done) : (turns tr).length = ticks tr := by
  induction tr with
  | nil => rfl
  | cons d tr ih =>
    have hticks : ticks (d :: tr) = d.act.ticks + ticks tr := by simp [ticks]
    rw [hticks, ← ih]
    cases hd : d.act <;> simp [turns, Act.ticks, hd, Nat.add_comm]

/-! ### One move -/

section

variable {s : Sched} {R T : List PcbPtr} {c : PcbPtr}

theorem rotated_eq_step (hc : c ∉ R) :
    (rotated false c R).2 = (RoundRobin.step (c, R) .turn).2 := by
  cases R with
  | nil => rfl
  | cons n R =>
    show ahead R c ++ [c] = R ++ [c]
    rw [ahead_of_notMem fun hm => hc (mem_cons_of_mem _ hm)]

theorem atomic_slice {a : Act} (ha : a ≠ .tick ∧ a ≠ .terminate ∧ a ≠ .butler)
    (hfill : a ≠ .fill c) :
    (a.atomic s).currentPCB = s.currentPCB ∧
      ((a.atomic s).pcb c).quantumLeft = (s.pcb c).quantumLeft := by
  cases a with
  | skip => exact ⟨rfl, rfl⟩
  | take p =>
    refine ⟨rfl, ?_⟩
    show ((s.taken p).pcb c).quantumLeft = _
    rw [Sched.taken_pcb]
    split <;> rfl
  | fill p =>
    refine ⟨rfl, ?_⟩
    show ((s.filled p).pcb c).quantumLeft = _
    rw [Sched.filled_pcb, if_neg]
    rintro rfl
    exact hfill rfl
  | add p =>
    refine ⟨?_, ?_⟩
    · show (s.addReady p).currentPCB = _
      rw [Sched.addReady_eq]
    · show ((s.addReady p).pcb c).quantumLeft = _
      rw [Sched.addReady_pcb]
  | tick => exact absurd rfl ha.1
  | terminate => exact absurd rfl ha.2.1
  | butler => exact absurd rfl ha.2.2

/-- **An interrupt that ends a time slice** ends a turn of the round robin. -/
theorem tick_turn (ht : Tasks s false R T) (hcur : s.currentPCB = some c)
    (hq : ((s.ticked.spent c).pcb c).quantumLeft ≤ 0) :
    s.tick.currentPCB = some (RoundRobin.step (c, R) .turn).1 ∧
      (s.tick.pcb (RoundRobin.step (c, R) .turn).1).quantumLeft =
        if R = [] then (s.pcb c).quantumLeft - 1 else timeslice := by
  obtain ⟨hqueues, hruns⟩ := ht.spent hcur
  have htick : s.tick = (s.ticked.spent c).dispatch := by
    simp [Sched.tick, hcur, hq]
  have hcur' : (s.ticked.spent c).currentPCB = some c := hcur
  rw [htick]
  cases R with
  | nil =>
    have hd : (s.ticked.spent c).dispatch = s.ticked.spent c := by
      simp [Sched.dispatch, hcur', hqueues.ready.head_nil, hruns.state]
    rw [hd]
    refine ⟨hcur', ?_⟩
    show ((s.ticked.spent c).pcb c).quantumLeft = _
    rw [spent_pcb, if_pos rfl]
    rfl
  | cons n R =>
    have hd : (s.ticked.spent c).dispatch = (s.ticked.spent c).switched c n := by
      simp [Sched.dispatch, hcur', hqueues.ready.head_eq]
    rw [hd, if_neg (cons_ne_nil n R)]
    refine ⟨(switched_eq _ c n).1, ?_⟩
    show (((s.ticked.spent c).switched c n).pcb n).quantumLeft = _
    rw [switched_quantumLeft, if_pos rfl]

end

/-- `n` interrupts after the start `c` has its turn, which the next one ends, and `R` waits. -/
structure Turn (E : Setting) (m : Machine) (n : ℕ) (c : PcbPtr) (R : List PcbPtr) : Prop where
  timed : ∃ pend, Timed E m false R [] pend
  ready : ReadyIs m.sched R
  current : m.sched.currentPCB = some c
  slice : (m.sched.pcb c).quantumLeft.toInt ≤ 1
  used : -(n : ℤ) ≤ (m.sched.pcb c).quantumLeft.toInt

namespace Turn

variable {E : Setting} {m m1 m' : Machine} {n : ℕ} {c : PcbPtr} {R : List PcbPtr} {v : Move}

section

variable (ht : Turn E m n c R)

include ht

theorem tasks : Tasks m.sched false R [] := by
  obtain ⟨pend, htimed⟩ := ht.timed
  exact htimed.rests.tasks

theorem off : c ∉ R := by
  intro hm
  have hst := (ht.tasks.runs ht.current).state
  rw [(ht.ready c).mpr hm] at hst
  cases hst

theorem spent (hn : 2 * (n + 1) < 2 ^ 32 - 1) :
    ((m.sched.pcb c).quantumLeft - 1).toInt = (m.sched.pcb c).quantumLeft.toInt - 1 ∧
      ((m.sched.ticked.spent c).pcb c).quantumLeft ≤ 0 := by
  have hslice := ht.slice
  have hused := ht.used
  have hsub : ((m.sched.pcb c).quantumLeft - 1).toInt = (m.sched.pcb c).quantumLeft.toInt - 1 :=
    Word32.toInt_sub_one (by omega)
  refine ⟨hsub, ?_⟩
  have hzero : (0 : Int32).toInt = 0 := rfl
  rw [spent_pcb, if_pos rfl, Int32.le_iff_toInt_le]
  show ((m.sched.pcb c).quantumLeft - 1).toInt ≤ 0
  omega

/-- A statement of `CreateProcess` does not end the turn. -/
theorem keep {i : ℤ} {R' : List PcbPtr} {a : Act} (ha : a ≠ .tick ∧ a ≠ .terminate ∧ a ≠ .butler)
    (hfill : a ≠ .fill c) (hsched : m'.sched = (a.atomic m.sched).locked i 0 false)
    (htimed : ∃ pend, Timed E m' false R' [] pend) (hready : ReadyIs m'.sched R') :
    Turn E m' n c R' := by
  obtain ⟨hcur, hslice⟩ := atomic_slice ha hfill
  have hkeep : (m'.sched.pcb c).quantumLeft = (m.sched.pcb c).quantumLeft := by
    rw [hsched]
    exact hslice
  refine ⟨htimed, hready, ?_, ?_, ?_⟩
  · rw [hsched]
    exact hcur.trans ht.current
  · rw [hkeep]
    exact ht.slice
  · rw [hkeep]
    exact ht.used

theorem tick {i : ℤ} {R' : List PcbPtr} (hn : 2 * (n + 1) < 2 ^ 32 - 1)
    (hsched : m'.sched = m.sched.tick.locked i 0 false)
    (htimed : ∃ pend, Timed E m' false R' [] pend) (hready : ReadyIs m'.sched R') :
    Turn E m' (n + 1) (RoundRobin.step (c, R) .turn).1 R' := by
  obtain ⟨hsub, hover⟩ := ht.spent hn
  obtain ⟨hnext, hslice⟩ := tick_turn ht.tasks ht.current hover
  have hquantum : (m'.sched.pcb (RoundRobin.step (c, R) .turn).1).quantumLeft =
      if R = [] then (m.sched.pcb c).quantumLeft - 1 else timeslice := by
    rw [hsched]
    exact hslice
  have hone : timeslice.toInt = 1 := rfl
  have hle := ht.slice
  have hge := ht.used
  refine ⟨htimed, hready, ?_, ?_, ?_⟩
  · rw [hsched]
    exact hnext
  · rw [hquantum]
    split <;> omega
  · rw [hquantum]
    split <;> omega

end

/-- **A move is an event** of the round robin, or none. -/
theorem move (hE : ∀ c, E.calls c ↔ c = .create) (ht : Turn E m n c R)
    (hok : Guarded Unblocked m v) (hs : v.start m = some m1)
    (hland : Settling.Lands step IsOpen m1 m') (hn : 2 * (n + (v.act m).ticks) < 2 ^ 32 - 1) :
    Turn E m' (n + (v.act m).ticks) (RoundRobin.run (c, R) (v.act m).event.toList).1
      (RoundRobin.run (c, R) (v.act m).event.toList).2 := by
  obtain ⟨pend, htimed⟩ := ht.timed
  have hcalls : ∀ c, v = .call c → E.calls c := fun c hc => (hE c).mpr (hok.1 c hc)
  have hdoes := htimed.rests.does hcalls hok.2 hs
  obtain ⟨i, loop', R', T', pend', hsched, hlist, htimed'⟩ :=
    htimed.move hcalls hok.2 hs hland
  -- no task terminates, and the block that is filled in is not that of the current task
  have hterm : v.act m ≠ .terminate := by
    intro hact
    rw [hact] at hdoes
    cases hdoes with
    | terminate hc _ _ => cases (hE _).mp hc
  have hfill : v.act m ≠ .fill c := by
    intro hact
    rw [hact] at hdoes
    cases hdoes with
    | fill hcur hpend =>
      exact (htimed.rests.creating.fresh m.owner c (.inr (.inl hcur)) hpend).current ht.current
  obtain ⟨hloop, hready⟩ := ht.ready.act ht.tasks (fun hc => absurd hc hterm) hlist
  have hready' : ReadyIs m'.sched R' := by
    rw [hsched]
    exact hready
  rw [hloop] at htimed'
  generalize v.act m = a at *
  cases hlist with
  | skip => exact ht.keep (by decide) hfill hsched ⟨pend', htimed'⟩ hready'
  | take p => exact ht.keep (by simp) hfill hsched ⟨pend', htimed'⟩ hready'
  | fill p => exact ht.keep (by simp) hfill hsched ⟨pend', htimed'⟩ hready'
  | add _ => exact ht.keep (by simp) hfill hsched ⟨pend', htimed'⟩ hready'
  | idle hcur => cases hcur.symm.trans ht.current
  | left hcur hq =>
    cases hcur.symm.trans ht.current
    exact absurd (ht.spent hn).2 hq
  | tick hcur hq =>
    cases hcur.symm.trans ht.current
    rw [rotated_eq_step ht.off] at htimed' hready'
    exact ht.tick hn hsched ⟨pend', htimed'⟩ hready'
  | terminate => exact absurd rfl hterm
  | free | pause =>
    cases hdoes with
    | butler hc _ _ => cases (hE _).mp hc

theorem turns_move (ht : Turn E m' n (RoundRobin.run (c, R) (v.act m).event.toList).1
      (RoundRobin.run (c, R) (v.act m).event.toList).2) :
    turns [⟨m, v, m'⟩] = (RoundRobin.turns (c, R) (v.act m).event.toList).map some := by
  have hcur := ht.current
  cases hact : v.act m with
  | tick =>
    rw [hact] at hcur
    have hturns : turns [⟨m, v, m'⟩] = [m'.sched.currentPCB] := by
      simp [turns, Done.act, hact]
    rw [hturns]
    exact congrArg (fun q => [q]) hcur
  | _ => simp [turns, Done.act, hact, Act.event, RoundRobin.turns]

/-- **A run is a round robin.** -/
theorem run {tr : List Done} (hE : ∀ c, E.calls c ↔ c = .create) (ht : Turn E m n c R)
    (hr : MoveRun (Guarded Unblocked) m tr m') (hn : 2 * (n + ticks tr) < 2 ^ 32 - 1) :
    Turn E m' (n + ticks tr) (RoundRobin.run (c, R) (tr.filterMap Done.event)).1
        (RoundRobin.run (c, R) (tr.filterMap Done.event)).2 ∧
      turns tr = (RoundRobin.turns (c, R) (tr.filterMap Done.event)).map some := by
  induction hr with
  | nil => exact ⟨ht, rfl⟩
  | @snoc tr m2 m1 m' v _ hok hs hland ih =>
    have hticks : ticks (tr ++ [⟨m2, v, m'⟩]) = ticks tr + (v.act m2).ticks := by
      simp [ticks, Done.act]
    have hsplit : turns (tr ++ [⟨m2, v, m'⟩]) = turns tr ++ turns [⟨m2, v, m'⟩] := by
      simp [turns, filter_append, map_append]
    rw [hticks, ← Nat.add_assoc] at hn ⊢
    obtain ⟨hturn, hturns⟩ := ih (by omega)
    have hturn' := hturn.move hE hok hs hland hn
    rw [filterMap_snoc, RoundRobin.run_append, RoundRobin.turns_append, map_append, hsplit, hturns]
    exact ⟨hturn', congrArg (_ ++ ·) hturn'.turns_move⟩

end Turn

/-! ### Runs -/

theorem Boot.turn {E : Setting} {m : Machine} (hb : Boot E.first m) : Turn E m 0 0 [] := by
  obtain ⟨s, hs, -⟩ := hb.sched
  have hcur : m.sched.currentPCB = some 0 := by rw [hs]; rfl
  have hslice : (m.sched.pcb 0).quantumLeft = 0 := by rw [hs]; rfl
  refine ⟨⟨_, hb.timed⟩, hb.readyIs, hcur, ?_, ?_⟩
  · rw [hslice]
    decide
  · rw [hslice]
    decide

/-- **Fairness**, in runs in which no task blocks and no interrupt cuts `PcbAlloc`: the task at
position `k` of the ready list runs after `k + 1` more interrupts, and not before; and when a turn
ends, each ready task has exactly one before the next of the same task. -/
theorem fair_of_run {h : Op} {m₀ m m' : Machine} {tr tr' : List Done}
    (hh : h = .user ∨ h = .butlerLoop) (h₀ : Boot h m₀)
    (hr : MoveRun (Guarded Unblocked) m₀ tr m) (hr' : MoveRun (Guarded Unblocked) m tr' m')
    (hn : 2 * (ticks tr + ticks tr') < 2 ^ 32 - 1) :
    ∃ c R, m.sched.currentPCB = some c ∧
      Queue m.sched.next m.sched.readyListHead m.sched.readyListTail R ∧ c ∉ R ∧
      (∀ k q, R[k]? = some q → k < ticks tr' →
        (turns tr')[k]? = some (some q) ∧ some q ∉ (turns tr').take k) ∧
      ∀ d tr'', tr' = d :: tr'' → d.act = .tick →
        (R.length < ticks tr' → (turns tr')[R.length]? = some (some c)) ∧
        ∀ j, (turns tr')[j]? = some (some c) → some c ∉ (turns tr').take j →
          ∀ q ∈ R, ((turns tr').take j).count (some q) = 1 := by
  have hstart : Turn (createSetting h hh) m₀ 0 0 [] := Boot.turn h₀
  obtain ⟨hturn, -⟩ := hstart.run (fun _ => Iff.rfl) hr (by omega)
  rw [Nat.zero_add] at hturn
  set s := RoundRobin.run ((0 : PcbPtr), []) (tr.filterMap Done.event) with hs
  have hqueue := hturn.tasks.queues.ready.queue
  have hnd := hturn.tasks.queues.ready.nodup
  have hinj : Function.Injective (some : PcbPtr → Option PcbPtr) := some_injective _
  obtain ⟨-, hturns⟩ := hturn.run (fun _ => Iff.rfl) hr' hn
  -- there are as many turns as interrupts
  have hlen : (RoundRobin.turns s (tr'.filterMap Done.event)).length = ticks tr' := by
    rw [← length_turns, hturns, length_map]
  refine ⟨s.1, s.2, hturn.current, hqueue, hturn.off, ?_, ?_⟩
  · intro k q hq hk
    rw [← hlen] at hk
    rw [hturns, List.getElem?_map, ← List.map_take, List.mem_map_of_injective hinj,
      RoundRobin.getElem?_turns hq hk]
    exact ⟨rfl, RoundRobin.notMem_take_turns hnd hq hk⟩
  · rintro d tr'' rfl hd
    have hevents : (d :: tr'').filterMap Done.event = .turn :: tr''.filterMap Done.event := by
      rw [filterMap_cons]
      simp [Done.event, hd, Act.event]
    rw [hevents] at hturns hlen
    rw [hturns]
    refine ⟨fun hk => ?_, fun j hj hfirst q hq => ?_⟩
    · rw [← hlen] at hk
      rw [List.getElem?_map, RoundRobin.getElem?_turns_turn hk]
      rfl
    · rw [← map_take] at hfirst ⊢
      rw [List.mem_map_of_injective hinj] at hfirst
      rw [count_map_of_injective _ _ hinj]
      rw [List.getElem?_map, map_eq_some_iff] at hj
      obtain ⟨c, hc, hcs⟩ := hj
      obtain rfl := hinj hcs
      exact RoundRobin.count_take_turns hnd hturn.off hc hfirst hq

/-- Two processes are created; the first one runs after the next interrupt. -/
theorem fair_of_run_bootMachine : (Op.butlerLoop = .user ∨ Op.butlerLoop = .butlerLoop) ∧
    Boot .butlerLoop bootMachine ∧
    ∃ tr tr' m m' R, MoveRun (Guarded Unblocked) bootMachine tr m ∧
      MoveRun (Guarded Unblocked) m tr' m' ∧ 2 * (ticks tr + ticks tr') < 2 ^ 32 - 1 ∧
      Queue m.sched.next m.sched.readyListHead m.sched.readyListTail R ∧ R.head? = some 1 ∧
      (turns tr')[0]? = some (some 1) := by
  have hrun : ((runMoves (fun m v => unblockedTest m v && uncutTest m v)
      (createMoves 1 ++ createMoves 2) bootMachine).bind fun r =>
        (runMoves (fun m v => unblockedTest m v && uncutTest m v) [.interrupt, .interrupt]
          r.2).map fun r' => (ticks r.1, ticks r'.1, r.2.sched.readyListHead)) =
      some (0, 2, some 1) := by decide
  obtain ⟨⟨tr, m⟩, hm, hrest⟩ := bind_eq_some_iff.mp hrun
  obtain ⟨⟨tr', m'⟩, hm', hview⟩ := map_eq_some_iff.mp hrest
  obtain ⟨hticks, hticks', hhead⟩ : ticks tr = 0 ∧ ticks tr' = 2 ∧
      m.sched.readyListHead = some 1 := by simpa using hview
  have htr := moveRun_of_runMoves (guarded_of_test unblocked_of_test) hm
  have htr' := moveRun_of_runMoves (guarded_of_test unblocked_of_test) hm'
  have hn : 2 * (ticks tr + ticks tr') < 2 ^ 32 - 1 := by omega
  obtain ⟨c, R, -, hR, -, hwait, -⟩ := fair_of_run (.inr rfl) boot_bootMachine htr htr' hn
  rw [hhead] at hR
  obtain ⟨R', rfl⟩ := hR.eq_cons_of_head
  refine ⟨.inr rfl, boot_bootMachine, tr, tr', m, m', 1 :: R', htr, htr', hn, ?_, rfl, ?_⟩
  · rw [hhead]
    exact hR
  · exact (hwait 0 1 rfl (by omega)).1

/-- Process 1 is interrupted with block 2 found free. The first task creates two processes, in
blocks 2 and 3. -/
def overtakenMoves : List Move :=
  createMoves 1 ++ [.interrupt] ++ .call .create :: List.replicate 3 .go ++ [.interrupt, .go] ++
    createMoves 2 ++ createMoves 3 ++ [.interrupt]

/-- Process 1 takes block 2, too, and the ready list is cut behind it. Task 3 is not current in
time. -/
theorem unfair_bootMachine : Boot .butlerLoop bootMachine ∧
    ∃ tr tr' m m' R, MoveRun Unblocked bootMachine tr m ∧ MoveRun Unblocked m tr' m' ∧
      2 * (ticks tr + ticks tr') < 2 ^ 32 - 1 ∧
      Queue m.sched.next m.sched.readyListHead m.sched.readyListTail R ∧
      R[1]? = some 3 ∧ 1 < ticks tr' ∧ (turns tr')[1]? ≠ some (some 3) := by
  have hrun : ((runMoves unblockedTest overtakenMoves bootMachine).bind fun r =>
      (runMoves unblockedTest (List.replicate 4 .go ++ [.interrupt, .interrupt]) r.2).map
        fun r' => (ticks r.1, turns r'.1, [r.2.sched.readyListHead, r.2.sched.readyListTail,
          r.2.sched.next 2, r.2.sched.next 3, r.2.sched.next 0])) =
      some (3, [some 2, some 1], [some 2, some 0, some 3, some 0, none]) := by decide +kernel
  obtain ⟨⟨tr, m⟩, hm, hrest⟩ := bind_eq_some_iff.mp hrun
  obtain ⟨⟨tr', m'⟩, hm', hview⟩ := map_eq_some_iff.mp hrest
  obtain ⟨hticks, hturns, hhead, htail, h2, h3, h0⟩ : ticks tr = 3 ∧
      turns tr' = [some 2, some 1] ∧ m.sched.readyListHead = some 2 ∧
      m.sched.readyListTail = some 0 ∧ m.sched.next 2 = some 3 ∧ m.sched.next 3 = some 0 ∧
      m.sched.next 0 = none := by simpa using hview
  have hticks' : ticks tr' = 2 := by rw [← length_turns, hturns]; rfl
  refine ⟨boot_bootMachine, tr, tr', m, m', [2, 3, 0],
    moveRun_of_runMoves unblocked_of_test hm, moveRun_of_runMoves unblocked_of_test hm',
    by omega, ⟨⟨hhead, h2, h3, h0⟩, htail⟩, rfl, by omega, ?_⟩
  rw [hturns]
  decide

end AthenX.Scheduler
