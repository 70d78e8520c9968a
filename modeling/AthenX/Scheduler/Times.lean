import AthenX.Lib.Word32
import AthenX.Scheduler.Between

/-!
# The time a task has used

`used` counts the time of a task, and `used = 0` marks a block as free, although the count may wrap
around. Each interrupt raises the counter twice, before any switch, which charges what it has gone
up by. So the time of a task, which starts at one, is odd as long as the task lives.
-/

namespace AthenX.Scheduler

open Linked

/-- The parity of the times. What the counter went up by since the last switch is not charged yet.
-/
structure Times (s : Sched) : Prop where
  elapsed : (s.counter - s.lastCounter).toNat % 2 = 0
  used : ∀ q, (s.pcb q).used ≠ 0 → (s.pcb q).used.toNat % 2 = 1

/-- The interrupts of a move. -/
def Act.ticks : Act → ℕ
  | .tick => 1
  | _     => 0

/-- The interrupts of a run. -/
def ticks (tr : List Done) : ℕ := ((tr.map Done.act).map Act.ticks).sum

section

variable {s s' : Sched} {c : PcbPtr}

section

variable (h : Times s)

include h

theorem Times.congr (hu : ∀ q, (s'.pcb q).used = (s.pcb q).used)
    (hc : s'.counter = s.counter) (hl : s'.lastCounter = s.lastCounter) : Times s' := by
  refine ⟨?_, fun q hq => ?_⟩
  · rw [hc, hl]
    exact h.elapsed
  · rw [hu] at hq ⊢
    exact h.used q hq

theorem Times.ticked : Times s.ticked := by
  refine ⟨?_, h.used⟩
  have heq : s.counter + 1 + 1 - s.lastCounter = (s.counter - s.lastCounter) + 2 := by grind
  have htwo : (2 : UInt32).toNat = 2 := rfl
  have helapsed := h.elapsed
  show (s.counter + 1 + 1 - s.lastCounter).toNat % 2 = 0
  rw [heq, Word32.parity_add]
  omega

theorem Times.spent (c : PcbPtr) : Times (s.spent c) :=
  h.congr (spent_used s c) rfl rfl

/-- **A switch** charges an even time to a task in use, which leaves its time odd. -/
theorem Times.switched (hc : s.currentPCB = some c) (hlive : (s.pcb c).used ≠ 0) (m : PcbPtr) :
    Times (s.switched c m) ∧
      ∀ q, (s.pcb q).used ≠ 0 → ((s.switched c m).pcb q).used ≠ 0 := by
  obtain ⟨-, hcounter, hlast, -⟩ := switched_eq s c m
  have hodd : ((s.pcb c).used + (s.counter - s.lastCounter)).toNat % 2 = 1 := by
    have helapsed := h.elapsed
    have hused := h.used c hlive
    rw [Word32.parity_add]
    omega
  refine ⟨⟨?_, fun q hq => ?_⟩, fun q hq => ?_⟩
  · rw [hcounter, hlast]
    simp
  · rw [switched_used m q hc] at hq ⊢
    split
    · next hqc =>
      rw [hqc]
      exact hodd
    · next hqc =>
      rw [if_neg hqc] at hq
      exact h.used q hq
  · rw [switched_used m q hc]
    split
    · next hqc =>
      rw [hqc]
      exact Word32.ne_zero_of_toNat_pos (by omega)
    · exact hq

theorem Times.dispatch (hlive : ∀ c, s.currentPCB = some c → (s.pcb c).used ≠ 0) :
    Times s.dispatch ∧ ∀ q, (s.pcb q).used ≠ 0 → (s.dispatch.pcb q).used ≠ 0 := by
  rcases s.dispatch_cases with hd | hd | ⟨c, m, hc, -, hd⟩
  · rw [hd]
    exact ⟨h, fun _ hq => hq⟩
  · rw [hd]
    exact ⟨h.congr (fun _ => rfl) rfl rfl, fun _ hq => hq⟩
  · rw [hd]
    exact h.switched hc (hlive c hc) m

theorem Times.take (p : PcbPtr) :
    Times (s.taken p) ∧ ∀ q, (s.pcb q).used ≠ 0 → ((s.taken p).pcb q).used ≠ 0 := by
  have hused : ∀ q, ((s.taken p).pcb q).used = if q = p then 1 else (s.pcb q).used := by
    intro q
    rw [Sched.taken_pcb]
    split <;> rfl
  refine ⟨⟨h.elapsed, fun q hq => ?_⟩, fun q hq => ?_⟩
  · rw [hused] at hq ⊢
    split
    · rfl
    · next hqp =>
      rw [if_neg hqp] at hq
      exact h.used q hq
  · rw [hused]
    split
    · decide
    · exact hq

section

variable (hlive : ∀ c, s.currentPCB = some c → (s.pcb c).used ≠ 0)

include hlive

theorem Times.tick : Times s.tick ∧ ∀ q, (s.pcb q).used ≠ 0 → (s.tick.pcb q).used ≠ 0 := by
  have hticked := h.ticked
  cases hc : s.currentPCB with
  | none =>
    simp only [Sched.tick, hc]
    exact ⟨hticked, fun _ hq => hq⟩
  | some c =>
    have hspent := hticked.spent c
    have hkeep : ∀ q, (s.pcb q).used ≠ 0 → ((s.ticked.spent c).pcb q).used ≠ 0 := by
      intro q hq
      rw [spent_used]
      exact hq
    by_cases hq : ((s.ticked.spent c).pcb c).quantumLeft ≤ 0
    · simp only [Sched.tick, hc, hq]
      obtain ⟨hd, hused⟩ := hspent.dispatch fun c' hc' => hkeep c' (hlive c' hc')
      exact ⟨hd, fun q hq => hused q (hkeep q hq)⟩
    · simp only [Sched.tick, hc, hq]
      exact ⟨hspent, hkeep⟩

theorem Times.terminate :
    Times s.terminate ∧ ∀ q, (s.pcb q).used ≠ 0 → (s.terminate.pcb q).used ≠ 0 := by
  cases hc : s.currentPCB with
  | none =>
    simp only [Sched.terminate, hc]
    exact ⟨h, fun _ hq => hq⟩
  | some c =>
    have hused : ∀ q, ((s.terminated c).pcb q).used = (s.pcb q).used := by
      intro q
      rw [Sched.terminated_pcb]
    have hregs : (s.terminated c).counter = s.counter ∧
        (s.terminated c).lastCounter = s.lastCounter ∧
        (s.terminated c).currentPCB = s.currentPCB := by
      rw [Sched.terminated, Sched.addReady_eq]
      rw [Sched.addTerminated_eq]
      exact ⟨rfl, rfl, rfl⟩
    simp only [Sched.terminate, hc]
    obtain ⟨hd, hkeep⟩ := (h.congr hused hregs.1 hregs.2.1).dispatch fun c' hc' => by
      rw [hused]
      exact hlive c' (hregs.2.2.symm.trans hc')
    refine ⟨hd, fun q hq => hkeep q ?_⟩
    rw [hused]
    exact hq

theorem Times.butlerRound :
    Times s.butlerRound ∧ ∀ q, (s.pcb q).used ≠ 0 → s.terminatedListHead ≠ some q →
      (s.butlerRound.pcb q).used ≠ 0 := by
  cases ht : s.terminatedListHead with
  | some t =>
    have hused : ∀ q, ((s.freeTerminated t).pcb q).used =
        if q = t then 0 else (s.pcb q).used := by
      intro q
      rw [Sched.freeTerminated_pcb]
      split <;> rfl
    simp only [Sched.butlerRound, ht]
    refine ⟨⟨h.elapsed, fun q hq => ?_⟩, fun q hq hne => ?_⟩
    · rw [hused] at hq ⊢
      split
      · next hqt => exact absurd (if_pos hqt) hq
      · next hqt =>
        rw [if_neg hqt] at hq
        exact h.used q hq
    · rw [hused, if_neg fun hc => hne (by rw [hc])]
      exact hq
  | none =>
    cases hc : s.currentPCB with
    | none =>
      simp only [Sched.butlerRound, ht, hc]
      exact ⟨h, fun _ hq _ => hq⟩
    | some c =>
      have hused : ∀ q, ((s.paused c).pcb q).used = (s.pcb q).used := by
        intro q
        rw [Sched.paused_pcb]
        split <;> rfl
      simp only [Sched.butlerRound, ht, hc]
      have hpaused : Times (s.paused c) := h.congr hused rfl rfl
      obtain ⟨hd, hkeep⟩ := hpaused.dispatch fun c' hc' => by
        rw [hused]
        exact hlive c' hc'
      refine ⟨hd, fun q hq _ => hkeep q ?_⟩
      rw [hused]
      exact hq

/-- **The times after any function**, called by a task in use. -/
theorem Times.act (a : Act) :
    Times (a.atomic s) ∧
    ∀ q, (s.pcb q).used ≠ 0 → (a = .butler → s.terminatedListHead ≠ some q) →
      ((a.atomic s).pcb q).used ≠ 0 := by
  cases a with
  | skip => exact ⟨h, fun q hq _ => hq⟩
  | take p =>
    obtain ⟨ht, hkeep⟩ := h.take p
    exact ⟨ht, fun q hq _ => hkeep q hq⟩
  | fill p =>
    have hused : ∀ q, ((s.filled p).pcb q).used = (s.pcb q).used := by
      intro q
      rw [Sched.filled_pcb]
      split <;> rfl
    refine ⟨h.congr hused rfl rfl, fun q hq _ => ?_⟩
    show ((s.filled p).pcb q).used ≠ 0
    rw [hused]
    exact hq
  | add p =>
    have hused : ∀ q, ((s.addReady p).pcb q).used = (s.pcb q).used := by
      intro q
      rw [Sched.addReady_pcb]
    have hcount : (s.addReady p).counter = s.counter ∧
        (s.addReady p).lastCounter = s.lastCounter := by
      rw [Sched.addReady_eq]
      exact ⟨rfl, rfl⟩
    refine ⟨h.congr hused hcount.1 hcount.2, fun q hq _ => ?_⟩
    show ((s.addReady p).pcb q).used ≠ 0
    rw [hused]
    exact hq
  | tick =>
    obtain ⟨ht, hkeep⟩ := h.tick hlive
    exact ⟨ht, fun q hq _ => hkeep q hq⟩
  | terminate =>
    obtain ⟨ht, hkeep⟩ := h.terminate hlive
    exact ⟨ht, fun q hq _ => hkeep q hq⟩
  | butler =>
    obtain ⟨ht, hkeep⟩ := h.butlerRound hlive
    exact ⟨ht, fun q hq hne => hkeep q hq (hne rfl)⟩

end

end

/-! ### Blocks in use -/

/-- The blocks of the tasks are in use. -/
def Live (s : Sched) (R T : List PcbPtr) : Prop :=
  ∀ q, InPlay s R q ∨ q ∈ T → (s.pcb q).used ≠ 0

variable {loop loop' : Bool} {R T R' T' : List PcbPtr}

theorem Live.current (h : Live s R T) (hc : s.currentPCB = some c) : (s.pcb c).used ≠ 0 :=
  h c (.inl (.inr (.inl hc)))

/-- **The blocks of the tasks stay in use.** -/
theorem Live.act (h : Live s R T) (ht : Tasks s loop R T) (htimes : Times s) {a : Act}
    (hl : ListStep s loop R T a loop' R' T')
    (hadd : ∀ p, a = .add p → (s.pcb p).used ≠ 0) : Live (a.atomic s) R' T' := by
  intro q hq
  refine (htimes.act (fun _ => h.current) a).2 q ?_ ?_
  · rcases hq with hq | hq
    · rcases hl.inPlay ht hq with hq | hq
      · exact h q (.inl hq)
      · exact hadd q hq
    · rcases hl.mem_term hq with hq | hq
      · exact h q (.inr hq)
      · exact h q (.inl (.inr (.inl hq)))
  · -- the block that is freed is not that of a task any more
    rintro rfl hhead
    cases hl with
    | @free t T' hT hcur =>
      have hterm := ht.queues.term
      rw [hT] at hterm
      have hqt : q = t := Option.some.inj (hhead.symm.trans hterm.chain.1)
      have htT : q ∈ T := by
        rw [hT, hqt]
        exact List.mem_cons_self
      have hround : s.butlerRound = s.freeTerminated t := by
        simp [Sched.butlerRound, hterm.chain.1]
      rw [Act.atomic, hround] at hq
      rcases hq with (hq | hq | hq) | hq
      · have hq' : q = s.butler := hq
        exact ht.queues.butler (hq' ▸ htT)
      · exact (ht.runs hq).notTerm htT
      · exact ht.queues.disjoint q hq htT
      · exact (List.nodup_cons.mp hterm.nodup).1 (hqt ▸ hq)
    | pause hT _ =>
      have hterm := ht.queues.term.chain
      rw [hT, hhead] at hterm
      cases hterm

/-! ### Runs -/

/-- The machine between two moves, with the times. -/
structure Timed (E : Setting) (m : Machine) (loop : Bool) (R T : List PcbPtr)
    (pend : PcbPtr → Option PcbPtr) : Prop where
  rests : Rests E m loop R T pend
  times : Times m.sched
  live : Live m.sched R T

variable {E : Setting} {pend : PcbPtr → Option PcbPtr}

theorem Boot.timed {m : Machine} (hb : Boot E.first m) : Timed E m false [] [] fun _ => none := by
  obtain ⟨s0, hs, hzero⟩ := hb.sched
  have hused : ∀ q, (m.sched.pcb q).used = if q = 0 then 1 else 0 := by
    intro q
    rw [hs]
    show (if q = 0 then _ else _ : Pcb).used = _
    split <;> rfl
  have helapsed : (m.sched.counter - m.sched.lastCounter).toNat = 0 := by
    rw [hs]
    show (s0.counter - s0.counter).toNat = 0
    simp
  refine ⟨hb.rests, ⟨by omega, fun q hq => ?_⟩, ?_⟩
  · rw [hused] at hq ⊢
    split
    · rfl
    · next hq0 => exact absurd (if_neg hq0) hq
  · have hbutler : m.sched.butler = 0 ∧ m.sched.currentPCB = some 0 := by
      rw [hs]
      exact ⟨rfl, rfl⟩
    rintro q ((hq | hq | hq) | hq)
    · rw [hused, if_pos (hq.trans hbutler.1)]
      decide
    · rw [hused, if_pos (Option.some.inj (hq.symm.trans hbutler.2))]
      decide
    · cases hq
    · cases hq

/-- **One move of a run**, with the times. -/
theorem Timed.move {m m1 m' : Machine} (ht : Timed E m loop R T pend) {v : Move}
    (hcalls : ∀ c, v = .call c → E.calls c)
    (htake : v = .interrupt → ∀ p k, m.code ≠ .pcbTake p :: k)
    (hs : v.start m = some m1) (hland : Settling.Lands step IsOpen m1 m') :
    ∃ i loop' R' T' pend', m'.sched = ((v.act m).atomic m.sched).locked i 0 false ∧
      ListStep m.sched loop R T (v.act m) loop' R' T' ∧
      Timed E m' loop' R' T' pend' := by
  have hrests := ht.rests
  obtain ⟨i, loop', R', T', hsched, hlist, hrests'⟩ :=
    hrests.move hcalls htake (fun p _ hused =>
      ⟨fun hc => ht.live p (.inl hc) hused, fun hc => ht.live p (.inr hc) hused⟩) hs hland
  have htimes := (ht.times.act (fun _ => ht.live.current) (v.act m)).1
  have hadd : ∀ p, v.act m = .add p → (m.sched.pcb p).used ≠ 0 := by
    intro p hp
    have hdoes := hrests.does hcalls htake hs
    rw [hp] at hdoes
    cases hdoes with
    | add hcur hpend =>
      rw [hrests.creating.used m.owner p (.inr (.inl hcur)) hpend]
      decide
  have hlive := ht.live.act hrests.tasks ht.times hlist hadd
  refine ⟨i, loop', R', T', _, hsched, hlist, hrests', ?_, ?_⟩
  · rw [hsched]
    exact ⟨htimes.elapsed, htimes.used⟩
  · rw [hsched]
    exact hlive

end

end AthenX.Scheduler
