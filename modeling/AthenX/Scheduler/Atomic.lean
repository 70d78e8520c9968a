import AthenX.Scheduler.Segments

/-!
# Critical sections as functions

What the scheduler does to its variables from one state with interrupts enabled to the next, which
`AthenX.Scheduler.Moves` proves of the machine. `TerminateProcess` makes the butler ready whether it
is so already or not. The ready list is then cut behind it, or ends in a loop at it. `Queues s loop
R T` allows for this, and is kept by everything.
-/

namespace AthenX.Scheduler

open Linked List

/-! ### The functions -/

/-- What can happen to the variables. -/
inductive Act where
  | skip
  /-- `PcbAlloc` takes a block. -/
  | take (p : PcbPtr)
  /-- `CreateProcess` fills it in. -/
  | fill (p : PcbPtr)
  /-- `CreateProcess` makes the new task ready. -/
  | add (p : PcbPtr)
  | tick
  | terminate
  | butler
  deriving DecidableEq, Repr

namespace Sched

/-- `Schedule`, up to where the task that runs then goes on, or the idle loop begins. -/
def dispatch (s : Sched) : Sched :=
  match s.currentPCB with
  | none   => s
  | some c =>
    match s.readyListHead with
    | some n => s.switched c n
    | none   => if (s.pcb c).state = .running then s else { s with currentPCB := none }

/-- The three ways of `Schedule`. -/
theorem dispatch_cases (s : Sched) :
    s.dispatch = s ∨ s.dispatch = { s with currentPCB := none } ∨
      ∃ c n, s.currentPCB = some c ∧ s.readyListHead = some n ∧ s.dispatch = s.switched c n := by
  cases hc : s.currentPCB with
  | none => exact .inl (by simp [dispatch, hc])
  | some c =>
    cases hn : s.readyListHead with
    | some n => exact .inr (.inr ⟨c, n, rfl, rfl, by simp [dispatch, hc, hn]⟩)
    | none =>
      by_cases hst : (s.pcb c).state = .running
      · exact .inl (by simp [dispatch, hc, hn, hst])
      · exact .inr (.inl (by simp [dispatch, hc, hn, hst]))

/-- A block taken by `PcbAlloc`. -/
def taken (s : Sched) (p : PcbPtr) : Sched := s.modify p fun b => { b with used := 1 }

/-- The block of a new task, as `CreateProcess` fills it in. -/
def filled (s : Sched) (p : PcbPtr) : Sched :=
  s.modify p fun b => { b with sleepUntil := -1, quantumLeft := 0 }

/-- A timer interrupt, with no task on the sleeping list. -/
def tick (s : Sched) : Sched :=
  match s.currentPCB with
  | none   => s.ticked
  | some c =>
    let s := s.ticked.spent c
    if (s.pcb c).quantumLeft ≤ 0 then s.dispatch else s

/-- The current task `c` terminated, up to `Schedule`. -/
def terminated (s : Sched) (c : PcbPtr) : Sched :=
  ((s.addTerminated c).modify c fun b => { b with state := .terminated }).addReady s.butler

/-- `TerminateProcess`. -/
def terminate (s : Sched) : Sched :=
  match s.currentPCB with
  | none   => s
  | some c => (s.terminated c).dispatch

/-- The current task `c` paused, up to `Schedule`. -/
def paused (s : Sched) (c : PcbPtr) : Sched := s.modify c fun b => { b with state := .paused }

/-- A round of `PerformButler`. -/
def butlerRound (s : Sched) : Sched :=
  match s.terminatedListHead with
  | some t => s.freeTerminated t
  | none   =>
    match s.currentPCB with
    | none   => s
    | some c => (s.paused c).dispatch

/-! ### Blocks -/

theorem taken_pcb (s : Sched) (p q : PcbPtr) :
    (s.taken p).pcb q = if q = p then { s.pcb q with used := 1 } else s.pcb q := by
  rw [taken, modify_pcb]
  split
  · next hq => rw [hq]
  · rfl

theorem filled_pcb (s : Sched) (p q : PcbPtr) :
    (s.filled p).pcb q =
      if q = p then { s.pcb q with sleepUntil := -1, quantumLeft := 0 } else s.pcb q := by
  rw [filled, modify_pcb]
  split
  · next hq => rw [hq]
  · rfl

theorem freeTerminated_pcb (s : Sched) (t q : PcbPtr) :
    (s.freeTerminated t).pcb q = if q = t then { s.pcb q with used := 0 } else s.pcb q := by
  rw [freeTerminated, pcbFree, modify_pcb]
  split
  · next hq => rw [hq]
  · rfl

theorem paused_pcb (s : Sched) (c q : PcbPtr) :
    (s.paused c).pcb q = if q = c then { s.pcb q with state := .paused } else s.pcb q := by
  rw [paused, modify_pcb]
  split
  · next hq => rw [hq]
  · rfl

theorem terminated_pcb (s : Sched) (c q : PcbPtr) :
    (s.terminated c).pcb q =
      { s.pcb q with
        state := if q = s.butler then .ready else if q = c then .terminated else (s.pcb q).state
        next := (s.terminated c).next q } := by
  have hterm : ∀ r, (((s.addTerminated c).modify c
      fun b => { b with state := .terminated }).pcb r) =
      { s.pcb r with
        state := if r = c then .terminated else (s.pcb r).state
        next := (((s.addTerminated c).modify c
          fun b => { b with state := .terminated }).pcb r).next } := by
    intro r
    rw [modify_pcb]
    by_cases hr : r = c
    · rw [if_pos hr, if_pos hr, addTerminated_pcb, hr]
    · rw [if_neg hr, if_neg hr, addTerminated_pcb, if_neg hr]
  rw [terminated, addReady_pcb, hterm]

end Sched

/-- The functions. -/
def Act.atomic : Act → Sched → Sched
  | .skip      => id
  | .take p    => fun s => s.taken p
  | .fill p    => fun s => s.filled p
  | .add p     => fun s => s.addReady p
  | .tick      => Sched.tick
  | .terminate => Sched.terminate
  | .butler    => Sched.butlerRound

/-! ### The lists -/

/-- The ready list `R`, in a loop at the butler if `loop`, and the terminated tasks `T`. Nobody
sleeps. -/
structure Queues (s : Sched) (loop : Bool) (R T : List PcbPtr) : Prop where
  ready : Rho s.next loop s.readyListHead s.readyListTail R
  hook : loop = true → R.getLast? = some s.butler
  sleep : s.sleepingListHead = none
  term : Queue s.next s.terminatedListHead s.terminatedListTail T
  disjoint : ∀ q ∈ R, q ∉ T
  butler : s.butler ∉ T

variable {f : Pcb → Pcb} {p q : PcbPtr} {a : Act}

namespace Queues

variable {s s' : Sched} {loop : Bool} {R T : List PcbPtr} {p c n : PcbPtr}

theorem congr (h : Queues s loop R T) (hnext : ∀ q, q ∈ R ∨ q ∈ T → s'.next q = s.next q)
    (hheads : s'.readyListHead = s.readyListHead ∧ s'.readyListTail = s.readyListTail ∧
      s'.sleepingListHead = s.sleepingListHead ∧
      s'.terminatedListHead = s.terminatedListHead ∧
      s'.terminatedListTail = s.terminatedListTail ∧ s'.butler = s.butler) :
    Queues s' loop R T := by
  obtain ⟨h1, h2, h3, h4, h5, h6⟩ := hheads
  refine ⟨?_, ?_, h3.trans h.sleep, ?_, h.disjoint, ?_⟩
  · rw [h1, h2]
    exact h.ready.congr fun q hq => hnext q (.inl hq)
  · rw [h6]
    exact h.hook
  · rw [h4, h5]
    exact h.term.congr fun q hq => hnext q (.inr hq)
  · rw [h6]
    exact h.butler

theorem modify (h : Queues s loop R T) (q : PcbPtr)
    (hf : ∀ b, (f b).next = b.next) : Queues (s.modify q f) loop R T := by
  refine h.congr ?_ ⟨rfl, rfl, rfl, rfl, rfl, rfl⟩
  intro r _
  rw [Sched.next, Sched.modify_pcb]
  split
  · next hr => rw [hf, hr]; rfl
  · rfl

theorem updateTimeUsed (h : Queues s loop R T) : Queues s.updateTimeUsed loop R T := by
  refine h.congr ?_ ?_
  · intro q _
    rw [Sched.next, Sched.updateTimeUsed_pcb]
    split <;> rfl
  · rw [Sched.updateTimeUsed_eq]
    exact ⟨rfl, rfl, rfl, rfl, rfl, rfl⟩

/-- **`AddReady`.**  Only the butler may be on the ready list before. -/
theorem addReady (h : Queues s loop R T) (hT : p ∉ T) (hp : p ∈ R → p = s.butler) :
    Queues (s.addReady p) (decide (R.getLast? = some p)) (ahead R p ++ [p]) T := by
  have hnext := Sched.addReady_next s p
  have hready := h.ready.put hnext
  have hbutler : (s.addReady p).butler = s.butler := by rw [Sched.addReady_eq]
  obtain ⟨h3, -, h5, h6⟩ := Sched.addReady_heads s p
  refine ⟨hready, ?_, h3.trans h.sleep, ?_, ?_, ?_⟩
  · intro hl
    rw [hbutler, ← hp (mem_of_getLast? (of_decide_eq_true hl))]
    simp
  · rw [h5, h6]
    refine h.term.congr ?_
    intro q hq
    rw [hnext, if_neg, if_neg]
    · rintro rfl
      exact hT hq
    · exact fun hc => h.disjoint q (h.ready.mem_tail hc.2) hq
  · intro q hq
    rcases mem_append.mp hq with hq | hq
    · exact h.disjoint q (mem_of_mem_ahead hq)
    · rw [mem_singleton.mp hq]
      exact hT
  · rw [hbutler]
    exact h.butler

/-- **`NextReady`**, with a new time slice. -/
theorem take (h : Queues s loop (n :: R) T) :
    Queues (s.take n) (loop && !R.isEmpty) (remainder loop n R) T ∧ (s.take n).next n = none := by
  have hnext : ∀ q, (s.take n).next q = if q = n then none else s.next q := by
    intro q
    rw [Sched.next, take_pcb]
    split <;> rfl
  have hnd := nodup_cons.mp h.ready.nodup
  have hnT : n ∉ T := h.disjoint n mem_cons_self
  refine ⟨⟨h.ready.pop ?_ ?_, ?_, h.sleep, h.term.congr ?_, ?_, h.butler⟩, ?_⟩
  · rw [hnext, if_pos rfl]
  · intro q hq
    rw [hnext, if_neg]
    rintro rfl
    exact hnd.1 hq
  · intro hl
    rw [Bool.and_eq_true] at hl
    cases R with
    | nil => cases hl.2
    | cons r R =>
      have hlast := h.hook hl.1
      rw [hl.1]
      exact hlast
  · intro q hq
    rw [hnext, if_neg]
    rintro rfl
    exact hnT hq
  · intro q hq
    rw [remainder] at hq
    split at hq
    · rw [mem_singleton.mp hq]
      exact hnT
    · exact h.disjoint q (mem_cons_of_mem _ hq)
  · rw [hnext, if_pos rfl]

/-- **`AddTerminated`**, on a task that is on no list and whose link is null. -/
theorem addTerminated (h : Queues s loop R T) (hR : c ∉ R) (hT : c ∉ T)
    (hn : s.next c = none) (hb : c ≠ s.butler) : Queues (s.addTerminated c) loop R (T ++ [c]) := by
  have hnext : ∀ q, (s.addTerminated c).next q =
      if s.terminatedListHead ≠ none ∧ s.terminatedListTail = some q then some c
      else if q = c then none else s.next q := by
    intro q
    rw [Sched.addTerminated_next]
    refine if_congr Iff.rfl rfl ?_
    split
    · next hq => rw [hq, hn]
    · rfl
  have hbutler : (s.addTerminated c).butler = s.butler := by rw [Sched.addTerminated_eq]
  have hsame := Sched.addTerminated_eq s c
  refine ⟨?_, ?_, by rw [hsame]; exact h.sleep, h.term.put hnext hT, ?_, ?_⟩
  · rw [show (s.addTerminated c).readyListHead = s.readyListHead by rw [hsame],
      show (s.addTerminated c).readyListTail = s.readyListTail by rw [hsame]]
    refine h.ready.congr ?_
    intro q hq
    rw [hnext, if_neg, if_neg]
    · rintro rfl
      exact hR hq
    · exact fun hc => h.disjoint q hq (h.term.rho.mem_tail hc.2)
  · rw [hbutler]
    exact h.hook
  · intro q hq hc
    rcases mem_append.mp hc with hc | hc
    · exact h.disjoint q hq hc
    · rw [mem_singleton.mp hc] at hq
      exact hR hq
  · rw [hbutler, mem_append, mem_singleton, not_or]
    exact ⟨h.butler, fun hc => hb hc.symm⟩

/-- **The butler** frees the first terminated task. -/
theorem freeTerminated (h : Queues s loop R (p :: T)) : Queues (s.freeTerminated p) loop R T := by
  have hpop : Queues
      { s with
        terminatedListHead := s.next p
        terminatedListTail := if s.next p = none then none else s.terminatedListTail }
      loop R T := by
    refine ⟨h.ready, h.hook, h.sleep, ?_, fun q hq hc => h.disjoint q hq (by simp [hc]),
      fun hc => h.butler (mem_cons_of_mem _ hc)⟩
    have hq := h.term
    rw [h.term.chain.1] at hq
    exact hq.dequeue fun _ _ => rfl
  exact hpop.modify p (f := fun b => { b with used := 0 }) fun _ => rfl

end Queues

/-! ### The task that runs -/

/-- The task `c` runs. Unless it is the butler, it is on no list and linked to nothing. -/
structure Runs (s : Sched) (R T : List PcbPtr) (c : PcbPtr) : Prop where
  state : (s.pcb c).state = .running
  notTerm : c ∉ T
  off : c ≠ s.butler → c ∉ R ∧ s.next c = none

/-- The lists, and a task that runs; or the butler is idle, and nothing is ready. -/
structure Tasks (s : Sched) (loop : Bool) (R T : List PcbPtr) : Prop where
  queues : Queues s loop R T
  place : (∃ c, s.currentPCB = some c ∧ Runs s R T c) ∨
    s.currentPCB = none ∧ R = [] ∧ (s.pcb s.butler).state ≠ .running

section

variable {s : Sched} {loop : Bool} {R T : List PcbPtr} {c n : PcbPtr}

theorem Tasks.runs (h : Tasks s loop R T) (hc : s.currentPCB = some c) : Runs s R T c := by
  rcases h.place with ⟨c', hc', hruns⟩ | ⟨hnone, -⟩
  · cases hc'.symm.trans hc
    exact hruns
  · rw [hnone] at hc
    cases hc

theorem Runs.modify (h : Runs s R T c) (q : PcbPtr)
    (hf : ∀ b, (f b).next = b.next ∧ (f b).state = b.state) : Runs (s.modify q f) R T c := by
  have hpcb : ((s.modify q f).pcb c).state = (s.pcb c).state ∧
      (s.modify q f).next c = s.next c := by
    rw [Sched.next, Sched.modify_pcb]
    split
    · next hq => rw [hq]; exact ⟨(hf _).2, (hf _).1⟩
    · exact ⟨rfl, rfl⟩
  refine ⟨hpcb.1.trans h.state, h.notTerm, fun hb => ?_⟩
  rw [hpcb.2]
  exact h.off hb

/-! ### `Schedule` -/

theorem Queues.head_off (h : Queues s loop (n :: R) T) (hn : n ≠ s.butler) :
    remainder loop n R = R ∧ n ∉ R := by
  refine ⟨?_, (nodup_cons.mp h.ready.nodup).1⟩
  rw [remainder]
  split
  · next hl =>
    rw [Bool.and_eq_true, List.isEmpty_iff] at hl
    have hlast := h.hook hl.1
    rw [hl.2] at hlast
    exact absurd (Option.some.inj hlast) hn
  · rfl

theorem mem_of_mem_remainder (h : q ∈ remainder loop n R) : q ∈ n :: R := by
  rw [remainder] at h
  split at h
  · rw [mem_singleton.mp h]
    exact mem_cons_self
  · exact mem_cons_of_mem _ h

theorem Queues.switched (h : Queues ((s.take n).requeue c) loop R T) (hn : n ∉ T)
    (hoff : n ≠ s.butler → n ∉ R ∧ ((s.take n).requeue c).next n = none) :
    Tasks (s.switched c n) loop R T := by
  have hupd := h.updateTimeUsed
  have hcur : Queues { s.leave c n with currentPCB := some n }
      loop R T := ⟨hupd.ready, hupd.hook, hupd.sleep, hupd.term, hupd.disjoint, hupd.butler⟩
  obtain ⟨hc, -, -, hb⟩ := switched_eq s c n
  refine ⟨hcur.modify n fun _ => rfl, .inl ⟨n, hc, ?_, hn, ?_⟩⟩
  · rw [switched_state, if_pos rfl]
  · intro hne
    rw [hb] at hne
    refine ⟨(hoff hne).1, ?_⟩
    rw [Sched.next, switched_pcb, if_pos rfl]
    rw [Sched.updateTimeUsed_pcb]
    split
    · exact (hoff hne).2
    · exact (hoff hne).2

/-- The ready list after `Schedule`, called by a task `c` that runs. -/
def rotated (loop : Bool) (c : PcbPtr) : List PcbPtr → Bool × List PcbPtr
  | []     => (loop, [])
  | n :: R => (decide ((remainder loop n R).getLast? = some c), ahead (remainder loop n R) c ++ [c])

/-- The ready list after `Schedule`, called by a task that does not run any more. -/
def popped (loop : Bool) : List PcbPtr → Bool × List PcbPtr
  | []     => (loop, [])
  | n :: R => (loop && !R.isEmpty, remainder loop n R)

/-- **`Schedule`**, called by a task that runs. -/
theorem Queues.dispatch_running (h : Queues s loop R T) (hcur : s.currentPCB = some c)
    (hc : Runs s R T c) : Tasks s.dispatch (rotated loop c R).1 (rotated loop c R).2 T := by
  cases R with
  | nil =>
    have hd : s.dispatch = s := by
      simp [Sched.dispatch, hcur, h.ready.head_nil, hc.state]
    rw [hd]
    exact ⟨h, .inl ⟨c, hcur, hc⟩⟩
  | cons n R =>
    have hd : s.dispatch = s.switched c n := by
      simp [Sched.dispatch, hcur, h.ready.head_eq]
    have hreq : (s.take n).requeue c = (s.take n).addReady c :=
      if_pos ((take_state s n c).trans hc.state)
    obtain ⟨htake, hnext⟩ := h.take
    have hmem : c ∈ remainder loop n R → c = s.butler := by
      intro hm
      by_contra hne
      exact (hc.off hne).1 (mem_of_mem_remainder hm)
    have hq := htake.addReady hc.notTerm hmem
    rw [← hreq] at hq
    rw [hd]
    refine hq.switched (h.disjoint n mem_cons_self) ?_
    intro hne
    obtain ⟨hrem, hnR⟩ := h.head_off hne
    have hcn : n ≠ c := by
      rintro rfl
      exact (hc.off hne).1 mem_cons_self
    refine ⟨?_, ?_⟩
    · rw [mem_append, mem_singleton, not_or, hrem]
      exact ⟨fun hm => hnR (mem_of_mem_ahead hm), hcn⟩
    · rw [hreq, Sched.addReady_next, if_neg, if_neg hcn, hnext]
      intro ht
      have := htake.ready.mem_tail ht.2
      rw [hrem] at this
      exact hnR this

/-- **`Schedule`**, called by a task that does not run any more. -/
theorem Queues.dispatch_blocked (h : Queues s loop R T) (hcur : s.currentPCB = some c)
    (hc : (s.pcb c).state ≠ .running) (hb : R = [] → c = s.butler) :
    Tasks s.dispatch (popped loop R).1 (popped loop R).2 T := by
  cases R with
  | nil =>
    have hd : s.dispatch = { s with currentPCB := none } := by
      simp [Sched.dispatch, hcur, h.ready.head_nil, hc]
    rw [hd]
    refine ⟨⟨h.ready, h.hook, h.sleep, h.term, h.disjoint, h.butler⟩, .inr ⟨rfl, rfl, ?_⟩⟩
    rw [hb rfl] at hc
    exact hc
  | cons n R =>
    have hd : s.dispatch = s.switched c n := by
      simp [Sched.dispatch, hcur, h.ready.head_eq]
    have hreq : (s.take n).requeue c = s.take n := by
      refine if_neg ?_
      rw [take_state]
      exact hc
    obtain ⟨htake, hnext⟩ := h.take
    rw [← hreq] at htake hnext
    rw [hd]
    refine htake.switched (h.disjoint n mem_cons_self) ?_
    intro hne
    obtain ⟨hrem, hnR⟩ := h.head_off hne
    refine ⟨?_, hnext⟩
    rw [hrem]
    exact hnR

/-! ### The lists after each function -/

/-- A task that may run: the butler, the current one, or one that is ready. -/
def InPlay (s : Sched) (R : List PcbPtr) (q : PcbPtr) : Prop :=
  q = s.butler ∨ s.currentPCB = some q ∨ q ∈ R

/-- A block that belongs to no task that may run or is to be freed. -/
structure Fresh (s : Sched) (R T : List PcbPtr) (p : PcbPtr) : Prop where
  off : ¬InPlay s R p
  term : p ∉ T

theorem Fresh.current (h : Fresh s R T p) : s.currentPCB ≠ some p :=
  fun hc => h.off (.inr (.inl hc))

theorem Fresh.ready (h : Fresh s R T p) : p ∉ R :=
  fun hc => h.off (.inr (.inr hc))

theorem Tasks.modify (h : Tasks s loop R T) (q : PcbPtr)
    (hf : ∀ b, (f b).next = b.next ∧ (f b).state = b.state) : Tasks (s.modify q f) loop R T := by
  refine ⟨h.queues.modify q fun b => (hf b).1, ?_⟩
  rcases h.place with ⟨c, hc, hruns⟩ | ⟨hc, hR, hst⟩
  · exact .inl ⟨c, hc, hruns.modify q hf⟩
  · refine .inr ⟨hc, hR, ?_⟩
    rw [Sched.modify_pcb]
    split
    · next hq =>
      rw [(hf _).2, ← hq]
      exact hst
    · exact hst

/-- **A new task** goes to the end of the ready list. -/
theorem Tasks.add (h : Tasks s loop R T) (hcur : s.currentPCB = some c)
    (hf : Fresh s R T p) : Tasks (s.addReady p) false (R ++ [p]) T := by
  have hlast : R.getLast? ≠ some p := fun hl => hf.ready (mem_of_getLast? hl)
  have hq := h.queues.addReady hf.term fun hm => absurd hm hf.ready
  rw [decide_eq_false hlast, ahead_of_notMem hf.ready] at hq
  have hruns := h.runs hcur
  have hne : c ≠ p := fun he => hf.current (he ▸ hcur)
  refine ⟨hq, .inl ⟨c, by rw [Sched.addReady_eq]; exact hcur, ?_, hruns.notTerm, ?_⟩⟩
  · rw [Sched.addReady_state, if_neg hne]
    exact hruns.state
  · intro hb
    rw [Sched.addReady_eq] at hb
    obtain ⟨hR, hn⟩ := hruns.off hb
    refine ⟨by simp [hR, hne], ?_⟩
    rw [Sched.addReady_next, if_neg fun ht => hR (h.queues.ready.mem_tail ht.2), if_neg hne, hn]

theorem Queues.ticked (h : Queues s loop R T) : Queues s.ticked loop R T :=
  ⟨h.ready, h.hook, rfl, h.term, h.disjoint, h.butler⟩

section

variable (h : Tasks s loop R T)

include h

/-- **A timer interrupt** in the idle loop. -/
theorem Tasks.tick_idle (hcur : s.currentPCB = none) : Tasks s.tick loop R T := by
  have ht : s.tick = s.ticked := by simp [Sched.tick, hcur]
  rw [ht]
  refine ⟨h.queues.ticked, .inr ?_⟩
  rcases h.place with ⟨c, hc, -⟩ | hidle
  · rw [hcur] at hc
    cases hc
  · exact hidle

section

variable (hcur : s.currentPCB = some c)

include hcur

theorem Tasks.spent : Queues (s.ticked.spent c) loop R T ∧ Runs (s.ticked.spent c) R T c := by
  have hruns := h.runs hcur
  have hticked : Runs s.ticked R T c := ⟨hruns.state, hruns.notTerm, hruns.off⟩
  exact ⟨h.queues.ticked.modify c fun _ => rfl, hticked.modify c fun _ => ⟨rfl, rfl⟩⟩

/-- **A timer interrupt** that ends a time slice. -/
theorem Tasks.tick (hq : ((s.ticked.spent c).pcb c).quantumLeft ≤ 0)
    : Tasks s.tick (rotated loop c R).1 (rotated loop c R).2 T := by
  have ht : s.tick = (s.ticked.spent c).dispatch := by
    simp [Sched.tick, hcur, hq]
  obtain ⟨hqueues, hruns⟩ := h.spent hcur
  rw [ht]
  exact hqueues.dispatch_running hcur hruns

/-- **A timer interrupt** that does not. -/
theorem Tasks.tick_left
    (hq : ¬((s.ticked.spent c).pcb c).quantumLeft ≤ 0) : Tasks s.tick loop R T := by
  have ht : s.tick = s.ticked.spent c := by simp [Sched.tick, hcur, hq]
  obtain ⟨hqueues, hruns⟩ := h.spent hcur
  rw [ht]
  exact ⟨hqueues, .inl ⟨c, hcur, hruns⟩⟩

/-- The lists when `TerminateProcess` calls `Schedule`. -/
theorem Tasks.terminated (hb : c ≠ s.butler) :
    Queues (s.terminated c) (decide (R.getLast? = some s.butler)) (ahead R s.butler ++ [s.butler])
      (T ++ [c]) ∧
    (s.terminated c).currentPCB = some c ∧ ((s.terminated c).pcb c).state = .terminated := by
  obtain ⟨-, hT, hoff⟩ := h.runs hcur
  obtain ⟨hR, hn⟩ := hoff hb
  have hterm := h.queues.addTerminated hR hT hn hb
  have hstate := hterm.modify c (f := fun b => { b with state := .terminated }) fun _ => rfl
  have hbutler : ((s.addTerminated c).modify c
      fun b => { b with state := .terminated }).butler = s.butler := by
    show (s.addTerminated c).butler = s.butler
    rw [Sched.addTerminated_eq]
  have hq := hstate.addReady ?_ fun _ => hbutler.symm
  · refine ⟨hq, ?_, ?_⟩
    · rw [Sched.terminated, Sched.addReady_eq]
      rw [Sched.addTerminated_eq]
      exact hcur
    · rw [Sched.terminated, Sched.addReady_state, if_neg hb, Sched.modify_self]
  · have := hstate.butler
    rwa [hbutler] at this

/-- **`TerminateProcess`**, called by a task that is not the butler. -/
theorem Tasks.terminate (hb : c ≠ s.butler) :
    Tasks s.terminate
      (popped (decide (R.getLast? = some s.butler)) (ahead R s.butler ++ [s.butler])).1
      (popped (decide (R.getLast? = some s.butler)) (ahead R s.butler ++ [s.butler])).2
      (T ++ [c]) := by
  have ht : s.terminate = (s.terminated c).dispatch := by simp [Sched.terminate, hcur]
  obtain ⟨hqueues, hc, hst⟩ := h.terminated hcur hb
  rw [ht]
  refine hqueues.dispatch_blocked hc (by rw [hst]; decide) ?_
  intro hnil
  exact absurd hnil (by simp)

end

end

/-- **A round of the butler** that frees a task. -/
theorem Tasks.free {t : PcbPtr} (h : Tasks s loop R (t :: T)) (hcur : s.currentPCB = some c) :
    Tasks s.butlerRound loop R T := by
  have hr : s.butlerRound = s.freeTerminated t := by
    simp [Sched.butlerRound, h.queues.term.chain.1]
  have hruns := h.runs hcur
  have hpop : Runs
      { s with
        terminatedListHead := s.next t
        terminatedListTail := if s.next t = none then none else s.terminatedListTail }
      R T c := ⟨hruns.state, fun hc => hruns.notTerm (mem_cons_of_mem _ hc), hruns.off⟩
  rw [hr]
  exact ⟨h.queues.freeTerminated, .inl ⟨c, hcur,
    hpop.modify t (f := fun b => { b with used := 0 }) fun _ => ⟨rfl, rfl⟩⟩⟩

/-- **A round of the butler** that finds nothing to do. -/
theorem Tasks.pause (h : Tasks s loop R []) (hcur : s.currentPCB = some s.butler) :
    Tasks s.butlerRound (popped loop R).1 (popped loop R).2 [] := by
  have hr : s.butlerRound = (s.paused s.butler).dispatch := by
    simp [Sched.butlerRound, chain_nil.mp h.queues.term.chain, hcur]
  have hq : Queues (s.paused s.butler) loop R [] := h.queues.modify s.butler fun _ => rfl
  have hst : ((s.paused s.butler).pcb s.butler).state = .paused := by
    rw [Sched.paused, Sched.modify_self]
  rw [hr]
  exact hq.dispatch_blocked hcur (by rw [hst]; decide) fun _ => rfl

/-! ### All functions -/

/-- What a function does to the lists. -/
inductive ListStep (s : Sched) (loop : Bool) (R T : List PcbPtr) :
    Act → Bool → List PcbPtr → List PcbPtr → Prop
  | skip : ListStep s loop R T .skip loop R T
  | take (p : PcbPtr) : ListStep s loop R T (.take p) loop R T
  | fill (p : PcbPtr) : ListStep s loop R T (.fill p) loop R T
  | add {p : PcbPtr} : Fresh s R T p → ListStep s loop R T (.add p) false (R ++ [p]) T
  | idle : s.currentPCB = none → ListStep s loop R T .tick loop R T
  | left {c : PcbPtr} : s.currentPCB = some c → ¬((s.ticked.spent c).pcb c).quantumLeft ≤ 0 →
      ListStep s loop R T .tick loop R T
  | tick {c : PcbPtr} : s.currentPCB = some c → ((s.ticked.spent c).pcb c).quantumLeft ≤ 0 →
      ListStep s loop R T .tick (rotated loop c R).1 (rotated loop c R).2 T
  | terminate {c : PcbPtr} : s.currentPCB = some c → c ≠ s.butler →
      ListStep s loop R T .terminate
        (popped (decide (R.getLast? = some s.butler)) (ahead R s.butler ++ [s.butler])).1
        (popped (decide (R.getLast? = some s.butler)) (ahead R s.butler ++ [s.butler])).2
        (T ++ [c])
  | free {t : PcbPtr} {T' : List PcbPtr} : T = t :: T' → s.currentPCB = some s.butler →
      ListStep s loop R T .butler loop R T'
  | pause : T = [] → s.currentPCB = some s.butler →
      ListStep s loop R T .butler (popped loop R).1 (popped loop R).2 T

/-- When a function can be applied. -/
structure Allowed (s : Sched) (R T : List PcbPtr) (a : Act) : Prop where
  add : ∀ p, a = .add p → s.currentPCB ≠ none ∧ Fresh s R T p
  terminate : a = .terminate → s.currentPCB ≠ none ∧ s.currentPCB ≠ some s.butler
  butler : a = .butler → s.currentPCB = some s.butler

/-- **The lists after any function.** -/
theorem Tasks.act (ht : Tasks s loop R T) (ha : Allowed s R T a) :
    ∃ loop' R' T', ListStep s loop R T a loop' R' T' ∧ Tasks (a.atomic s) loop' R' T' := by
  cases a with
  | skip => exact ⟨loop, R, T, .skip, ht⟩
  | take p =>
    exact ⟨loop, R, T, .take p,
      ht.modify p (f := fun b => { b with used := 1 }) fun _ => ⟨rfl, rfl⟩⟩
  | fill p =>
    exact ⟨loop, R, T, .fill p,
      ht.modify p (f := fun b => { b with sleepUntil := -1, quantumLeft := 0 }) fun _ => ⟨rfl, rfl⟩⟩
  | add p =>
    obtain ⟨hsome, hf⟩ := ha.add p rfl
    obtain ⟨c, hcur⟩ := Option.ne_none_iff_exists'.mp hsome
    exact ⟨false, R ++ [p], T, .add hf, ht.add hcur hf⟩
  | tick =>
    cases hcur : s.currentPCB with
    | none => exact ⟨loop, R, T, .idle hcur, ht.tick_idle hcur⟩
    | some c =>
      by_cases hq : ((s.ticked.spent c).pcb c).quantumLeft ≤ 0
      · exact ⟨_, _, _, .tick hcur hq, ht.tick hcur hq⟩
      · exact ⟨_, _, _, .left hcur hq, ht.tick_left hcur hq⟩
  | terminate =>
    obtain ⟨hsome, hne⟩ := ha.terminate rfl
    obtain ⟨c, hcur⟩ := Option.ne_none_iff_exists'.mp hsome
    have hb : c ≠ s.butler := fun hc => hne (hc ▸ hcur)
    exact ⟨_, _, _, .terminate hcur hb, ht.terminate hcur hb⟩
  | butler =>
    have hb := ha.butler rfl
    cases T with
    | nil => exact ⟨_, _, _, .pause rfl hb, ht.pause hb⟩
    | cons t T => exact ⟨_, _, _, .free rfl hb, ht.free hb⟩

theorem mem_rotated (h : q ∈ (rotated loop c R).2) : q ∈ R ∨ q = c := by
  cases R with
  | nil => cases h
  | cons n R =>
    rcases mem_append.mp h with h | h
    · exact .inl (mem_of_mem_remainder (mem_of_mem_ahead h))
    · exact .inr (mem_singleton.mp h)

theorem mem_popped (h : q ∈ (popped loop R).2) : q ∈ R := by
  cases R with
  | nil => cases h
  | cons n R => exact mem_of_mem_remainder h

/-- Who can be the current task after `Schedule`. -/
theorem dispatch_current (hq : s.dispatch.currentPCB = some q) :
    s.currentPCB = some q ∨ s.readyListHead = some q := by
  rcases s.dispatch_cases with hd | hd | ⟨c, m, -, hm, hd⟩
  · rw [hd] at hq
    exact .inl hq
  · rw [hd] at hq
    cases hq
  · rw [hd] at hq
    exact .inr (hm.trans hq)

theorem dispatch_butler (s : Sched) : s.dispatch.butler = s.butler := by
  rcases s.dispatch_cases with hd | hd | ⟨c, m, -, -, hd⟩
  · rw [hd]
  · rw [hd]
  · rw [hd]
    exact (switched_eq s c m).2.2.2

theorem terminated_eq (s : Sched) (c : PcbPtr) :
    (s.terminated c).butler = s.butler ∧ (s.terminated c).currentPCB = s.currentPCB ∧
      (s.terminated c).readyListHead = s.readyListHead.or (some s.butler) := by
  rw [Sched.terminated, Sched.addReady_eq]
  rw [Sched.addTerminated_eq]
  exact ⟨rfl, rfl, rfl⟩

theorem atomic_current (a : Act) (s : Sched) :
    (a.atomic s).butler = s.butler ∧
      ∀ q, (a.atomic s).currentPCB = some q →
        s.currentPCB = some q ∨ s.readyListHead = some q ∨ q = s.butler := by
  cases a with
  | skip => exact ⟨rfl, fun _ hq => .inl hq⟩
  | take p => exact ⟨rfl, fun _ hq => .inl hq⟩
  | fill p => exact ⟨rfl, fun _ hq => .inl hq⟩
  | add p =>
    simp only [Act.atomic]
    rw [Sched.addReady_eq]
    exact ⟨rfl, fun _ hq => .inl hq⟩
  | tick =>
    simp only [Act.atomic, Sched.tick]
    split
    · next hc => exact ⟨rfl, fun _ hq => .inl (hc ▸ hq)⟩
    · split
      · refine ⟨dispatch_butler _, fun q hq => ?_⟩
        exact (dispatch_current hq).imp id .inl
      · exact ⟨rfl, fun _ hq => .inl hq⟩
  | terminate =>
    simp only [Act.atomic, Sched.terminate]
    split
    · next hc => exact ⟨rfl, fun _ hq => .inl (hc ▸ hq)⟩
    · next c hc =>
      obtain ⟨hb, hcur, hhead⟩ := terminated_eq s c
      refine ⟨(dispatch_butler _).trans hb, fun q hq => ?_⟩
      rcases dispatch_current hq with hq | hq
      · exact .inl (hcur.symm.trans hq)
      · rw [hhead] at hq
        cases hr : s.readyListHead with
        | none =>
          rw [hr] at hq
          exact .inr (.inr (Option.some.inj hq).symm)
        | some r =>
          rw [hr] at hq
          exact .inr (.inl hq)
  | butler =>
    simp only [Act.atomic, Sched.butlerRound]
    split
    · exact ⟨rfl, fun _ hq => .inl hq⟩
    · split
      · next hc => exact ⟨rfl, fun _ hq => .inl (hc ▸ hq)⟩
      · refine ⟨dispatch_butler _, fun q hq => ?_⟩
        exact (dispatch_current hq).imp id .inl

section

variable {loop' : Bool} {R' T' : List PcbPtr}

section

variable (h : ListStep s loop R T a loop' R' T')

include h

theorem ListStep.mem_ready (hq : q ∈ R') : InPlay s R q ∨ a = .add q := by
  cases h with
  | add hf =>
    rcases mem_append.mp hq with hq | hq
    · exact .inl (.inr (.inr hq))
    · rw [mem_singleton.mp hq]
      exact .inr rfl
  | tick hcur _ =>
    rcases mem_rotated hq with hq | hq
    · exact .inl (.inr (.inr hq))
    · rw [hq]
      exact .inl (.inr (.inl hcur))
  | terminate =>
    rcases mem_append.mp (mem_popped hq) with hq | hq
    · exact .inl (.inr (.inr (mem_of_mem_ahead hq)))
    · exact .inl (.inl (mem_singleton.mp hq))
  | pause => exact .inl (.inr (.inr (mem_popped hq)))
  | _ => exact .inl (.inr (.inr hq))

/-- **Who can be in play.** -/
theorem ListStep.inPlay (ht : Tasks s loop R T)
    (hq : InPlay (a.atomic s) R' q) : InPlay s R q ∨ a = .add q := by
  obtain ⟨hbutler, hcurrent⟩ := atomic_current a s
  rcases hq with hq | hq | hq
  · exact .inl (.inl (hq.trans hbutler))
  · rcases hcurrent q hq with hq | hq | hq
    · exact .inl (.inr (.inl hq))
    · exact .inl (.inr (.inr (ht.queues.ready.mem_head hq)))
    · exact .inl (.inl hq)
  · exact h.mem_ready hq

theorem ListStep.mem_term (hq : q ∈ T') : q ∈ T ∨ s.currentPCB = some q := by
  cases h with
  | terminate hcur _ =>
    rcases mem_append.mp hq with hq | hq
    · exact .inl hq
    · rw [mem_singleton.mp hq]
      exact .inr hcur
  | free hT _ =>
    rw [hT]
    exact .inl (mem_cons_of_mem _ hq)
  | _ => exact .inl hq

end

/-- **A block that belongs to no task** stays so until it is added. -/
theorem Fresh.act (h : Fresh s R T q) (hl : ListStep s loop R T a loop' R' T')
    (ht : Tasks s loop R T) (ha : a ≠ .add q) : Fresh (a.atomic s) R' T' q := by
  refine ⟨fun hq => ?_, fun hq => ?_⟩
  · rcases hl.inPlay ht hq with hq | hq
    · exact h.off hq
    · exact ha hq
  · rcases hl.mem_term hq with hq | hq
    · exact h.term hq
    · exact h.current hq

end

/-! ### The time used -/

theorem spent_used (s : Sched) (c q : PcbPtr) : ((s.spent c).pcb q).used = (s.pcb q).used := by
  rw [spent_pcb]
  split <;> rfl

theorem dispatch_used (hq : s.currentPCB ≠ some q) : (s.dispatch.pcb q).used = (s.pcb q).used := by
  rcases s.dispatch_cases with hd | hd | ⟨c, m, hc, -, hd⟩
  · rw [hd]
  · rw [hd]
  · rw [hd, switched_used m q hc, if_neg]
    rintro rfl
    exact hq hc

theorem atomic_used (hcur : s.currentPCB ≠ some q) (htake : a ≠ .take q)
    (hfree : a = .butler → s.terminatedListHead ≠ some q) :
    ((a.atomic s).pcb q).used = (s.pcb q).used := by
  cases a with
  | skip => rfl
  | take p =>
    simp only [Act.atomic]
    rw [Sched.taken_pcb, if_neg]
    rintro rfl
    exact htake rfl
  | fill p =>
    simp only [Act.atomic]
    rw [Sched.filled_pcb]
    split <;> rfl
  | add p =>
    simp only [Act.atomic]
    rw [Sched.addReady_pcb]
  | tick =>
    simp only [Act.atomic, Sched.tick]
    split
    · rfl
    · next c hc =>
      split
      · rw [dispatch_used (s := s.ticked.spent c) hcur, spent_used]
        rfl
      · rw [spent_used]
        rfl
  | terminate =>
    simp only [Act.atomic, Sched.terminate]
    split
    · rfl
    · next c hc =>
      rw [dispatch_used, Sched.terminated_pcb]
      rw [(terminated_eq s c).2.1]
      exact hcur
  | butler =>
    simp only [Act.atomic, Sched.butlerRound]
    split
    · next t ht =>
      rw [Sched.freeTerminated_pcb, if_neg]
      rintro rfl
      exact hfree rfl ht
    · split
      · rfl
      · next c hc =>
        rw [dispatch_used (s := s.paused c) hcur, Sched.paused_pcb]
        split <;> rfl

end

end AthenX.Scheduler
