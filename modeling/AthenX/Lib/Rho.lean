import AthenX.Lib.Chain

/-!
# Queues that may end in a loop

If a record is appended to a queue that it is on already, the queue is cut behind it; and if it is
the last one, it is linked to itself. `Rho next loop head tail l` describes what such a queue can
be, and appending and removing keep to this.
-/

namespace Linked

open List

variable {α : Type*} {next next' : α → Option α}

/-- A queue with the records `l`, the last one linked to itself if `loop`. -/
structure Rho (next : α → Option α) (loop : Bool) (head tail : Option α) (l : List α) :
    Prop where
  seg : Seg next head l (if loop then tail else none)
  tail_eq : tail = l.getLast?
  nodup : l.Nodup
  ne_nil : loop = true → l ≠ []

variable {loop : Bool} {head tail : Option α} {l : List α} {a : α}

theorem Queue.rho (h : Queue next head tail l) : Rho next false head tail l :=
  ⟨h.chain, h.tail_eq, h.nodup, fun hc => by cases hc⟩

theorem Rho.queue (h : Rho next false head tail l) : Queue next head tail l :=
  ⟨h.seg, h.tail_eq⟩

theorem Rho.congr (h : Rho next loop head tail l) (hn : ∀ b ∈ l, next' b = next b) :
    Rho next' loop head tail l :=
  ⟨h.seg.congr hn, h.tail_eq, h.nodup, h.ne_nil⟩

theorem Rho.mem_tail (h : Rho next loop head tail l) {t : α} (ht : tail = some t) : t ∈ l :=
  mem_of_getLast? (h.tail_eq.symm.trans ht)

theorem Rho.head_eq (h : Rho next loop head tail (a :: l)) : head = some a := h.seg.1

theorem Rho.head_nil (h : Rho next loop head tail []) : head = none := by
  cases loop with
  | true => exact absurd rfl (h.ne_nil rfl)
  | false => exact h.seg

theorem Rho.mem_head (h : Rho next loop head tail l) (ha : head = some a) : a ∈ l := by
  cases l with
  | nil =>
    rw [h.head_nil] at ha
    cases ha
  | cons b l =>
    cases h.head_eq.symm.trans ha
    exact mem_cons_self

/-- Nothing but the records of the queue is met from its head. -/
theorem Rho.mem_of_seg (h : Rho next loop head tail l) {l' : List α} {b : α}
    (hb : Seg next head l' (some b)) : b ∈ l := by
  have hclosed : ∀ {l1 : List α} {p : Option α},
      Seg next p l1 (if loop then tail else none) → (∀ c ∈ l1, c ∈ l) →
      (∀ c, p = some c → c ∈ l) ∧ ∀ c ∈ l1, ∀ d, next c = some d → d ∈ l := by
    intro l1
    induction l1 with
    | nil =>
      intro p hp _
      refine ⟨fun c hc => ?_, fun c hc => by cases hc⟩
      rw [seg_nil.mp hp] at hc
      split at hc
      · exact h.mem_tail hc
      · cases hc
    | cons c l1 ih =>
      intro p hp hsub
      obtain ⟨hhead, hlinks⟩ := ih hp.2 fun d hd => hsub d (mem_cons_of_mem _ hd)
      refine ⟨fun d hd => ?_, fun d hd => ?_⟩
      · cases hp.1.symm.trans hd
        exact hsub _ mem_cons_self
      · rcases mem_cons.mp hd with rfl | hd
        · exact hhead
        · exact hlinks d hd
  obtain ⟨hhead, hlinks⟩ := hclosed h.seg fun _ hc => hc
  -- the walk stays on the queue
  have hwalk : ∀ {l' : List α} {p : Option α}, (∀ c, p = some c → c ∈ l) →
      Seg next p l' (some b) → b ∈ l := by
    intro l'
    induction l' with
    | nil => intro p hp hs; exact hp b (seg_nil.mp hs)
    | cons c l' ih => intro p hp hs; exact ih (hlinks c (hp c hs.1)) hs.2
  exact hwalk hhead hb

/-- The records in front of one of the queue. -/
theorem Rho.split {l1 l2 : List α} {b : α} (h : Rho next loop head tail (l1 ++ b :: l2)) (a : α) :
    Seg next head l1 (some b) ∧ head ≠ none ∧ head.or (some a) = head := by
  obtain ⟨r, hseg, hr⟩ := seg_append.mp h.seg
  rw [hr.1] at hseg
  refine ⟨hseg, ?_⟩
  rw [hseg.start_eq]
  cases l1 <;> simp

section

variable [DecidableEq α]

/-- The records in front of `a`, or all of them. -/
def ahead (l : List α) (a : α) : List α := l.takeWhile fun b => decide (b ≠ a)

theorem ahead_cons_self (a : α) (l : List α) : ahead (a :: l) a = [] := by
  simp [ahead]

theorem ahead_cons_of_ne {b : α} (h : b ≠ a) (l : List α) : ahead (b :: l) a = b :: ahead l a := by
  simp [ahead, h]

theorem ahead_of_notMem (h : a ∉ l) : ahead l a = l := by
  induction l with
  | nil => rfl
  | cons b l ih =>
    rw [mem_cons, not_or] at h
    rw [ahead_cons_of_ne fun hc => h.1 hc.symm, ih h.2]

theorem ahead_append {l1 l2 : List α} (h : a ∉ l1) : ahead (l1 ++ a :: l2) a = l1 := by
  induction l1 with
  | nil => exact ahead_cons_self a l2
  | cons b l1 ih =>
    rw [mem_cons, not_or] at h
    rw [cons_append, ahead_cons_of_ne fun hc => h.1 hc.symm, ih h.2]

theorem mem_of_mem_ahead {b : α} (h : b ∈ ahead l a) : b ∈ l :=
  (List.takeWhile_prefix _).subset h

variable (hnext : ∀ q, next' q =
  if head ≠ none ∧ tail = some q then some a else if q = a then none else next q)

include hnext

/-- Appending a record on the queue: it is cut behind `a`, and a last one is linked to itself. -/
theorem Rho.put_of_mem {l1 l2 : List α} (h : Rho next loop head tail (l1 ++ a :: l2)) :
    Rho next' (decide ((l1 ++ a :: l2).getLast? = some a)) (head.or (some a)) (some a)
      (l1 ++ [a]) := by
  have hnd := h.nodup
  rw [nodup_append] at hnd
  have ha : a ∉ l1 := fun hc => hnd.2.2 a hc a mem_cons_self rfl
  obtain ⟨hseg, hhead, hor⟩ := h.split a
  -- the last record is not in front of `a`
  have htail : ∀ q ∈ l1, tail ≠ some q := by
    intro q hq hc
    rw [h.tail_eq, List.getLast?_append] at hc
    have hmem : q ∈ a :: l2 := by
      cases hl : (a :: l2).getLast? with
      | none => exact absurd (List.getLast?_eq_none_iff.mp hl) (cons_ne_nil _ _)
      | some t =>
        rw [hl] at hc
        cases hc
        exact mem_of_getLast? hl
    exact hnd.2.2 q hq q hmem rfl
  have hnew : next' a = if tail = some a then some a else none := by
    rw [hnext]
    simp [hhead]
  have hnodup : (l1 ++ [a]).Nodup := by
    rw [← concat_eq_append]
    exact hnd.1.concat ha
  rw [hor]
  refine ⟨seg_append.mpr ⟨some a, hseg.congr ?_, rfl, ?_⟩, by simp, hnodup, by simp⟩
  · intro q hq
    rw [hnext, if_neg fun hc => htail q hq hc.2, if_neg]
    rintro rfl
    exact ha hq
  · rw [hnew, h.tail_eq]
    by_cases hlast : (l1 ++ a :: l2).getLast? = some a
    · rw [if_pos hlast, decide_eq_true hlast]
      rfl
    · rw [if_neg hlast, decide_eq_false hlast]
      rfl

/-- Appending another record: the last one is linked to it. -/
theorem Rho.put_of_notMem (h : Rho next loop head tail l) (ha : a ∉ l) :
    Rho next' false (head.or (some a)) (some a) (l ++ [a]) := by
  have hnew : next' a = none := by
    rw [hnext, if_neg fun hc => ha (h.mem_tail hc.2), if_pos rfl]
  have hnodup : (l ++ [a]).Nodup := by
    rw [← concat_eq_append]
    exact h.nodup.concat ha
  refine ⟨?_, by simp, hnodup, fun hc => by cases hc⟩
  rcases eq_nil_or_concat l with rfl | ⟨l, t, rfl⟩
  · rw [h.head_nil]
    exact ⟨rfl, hnew⟩
  · rw [concat_eq_append] at h ha ⊢
    have ht : tail = some t := by rw [h.tail_eq]; simp
    have hnd := h.nodup
    rw [nodup_append] at hnd
    obtain ⟨hseg, hhead, hor⟩ := h.split a
    rw [hor, append_assoc]
    refine seg_append.mpr ⟨some t, hseg.congr ?_, rfl, ?_⟩
    · intro q hq
      rw [hnext, if_neg, if_neg]
      · rintro rfl
        exact ha (mem_append_left _ hq)
      · rintro ⟨-, hc⟩
        exact hnd.2.2 q hq t (by simp) (Option.some.inj (hc.symm.trans ht))
    · rw [hnext, if_pos ⟨hhead, ht⟩]
      exact ⟨rfl, hnew⟩

/-- A record on no queue is put at the end of this one. -/
theorem Queue.put (h : Queue next head tail l) (ha : a ∉ l) :
    Queue next' (head.or (some a)) (some a) (l ++ [a]) :=
  (h.rho.put_of_notMem hnext ha).queue

/-- Another chain does not see it. -/
theorem Queue.put_chain {p : Option α} {l' : List α} (h : Queue next head tail l)
    (h' : Chain next p l') (ha : a ∉ l') (hdis : ∀ q ∈ l', q ∉ l) : Chain next' p l' := by
  refine h'.congr ?_
  intro q hq
  rw [hnext, if_neg fun hc => hdis q hq (h.rho.mem_tail hc.2), if_neg]
  rintro rfl
  exact ha hq

theorem Queue.put_other {head' tail' : Option α} {l' : List α} (h : Queue next head tail l)
    (h' : Queue next head' tail' l') (ha : a ∉ l') (hdis : ∀ q ∈ l', q ∉ l) :
    Queue next' head' tail' l' :=
  ⟨h.put_chain hnext h'.chain ha hdis, h'.tail_eq⟩

/-- **Appending a record**, which may be on the queue already. -/
theorem Rho.put (h : Rho next loop head tail l) :
    Rho next' (decide (l.getLast? = some a)) (head.or (some a)) (some a) (ahead l a ++ [a]) := by
  by_cases ha : a ∈ l
  · obtain ⟨l1, l2, rfl⟩ := append_of_mem ha
    have ha1 : a ∉ l1 := fun hc =>
      (nodup_append.mp h.nodup).2.2 a hc a mem_cons_self rfl
    rw [ahead_append ha1]
    exact h.put_of_mem hnext
  · have hlast : l.getLast? ≠ some a := fun hc => ha (mem_of_getLast? hc)
    rw [ahead_of_notMem ha, decide_eq_false hlast]
    exact h.put_of_notMem hnext ha

end

/-- What is left without `a`: a record that is linked to itself stays, once. -/
def remainder (loop : Bool) (a : α) (l : List α) : List α :=
  if loop && l.isEmpty then [a] else l

/-- **Removing the first record.** -/
theorem Rho.pop (h : Rho next loop head tail (a :: l)) (ha : next' a = none)
    (hkeep : ∀ b ∈ l, next' b = next b) :
    Rho next' (loop && !l.isEmpty) (next a) (if next a = none then none else tail)
      (remainder loop a l) := by
  have hnd := nodup_cons.mp h.nodup
  cases loop with
  | false =>
    have hq : Queue next (some a) tail (a :: l) := by
      rw [← h.head_eq]
      exact h.queue
    exact (hq.dequeue hkeep).rho
  | true =>
    have hlink : Seg next (next a) l tail := h.seg.2
    cases l with
    | nil =>
      have ht : tail = some a := h.tail_eq
      have hself : next a = some a := (seg_nil.mp hlink).trans ht
      rw [hself]
      refine ⟨⟨rfl, ha⟩, ?_, nodup_singleton a, fun hc => by cases hc⟩
      rw [ht]
      rfl
    | cons b l =>
      have hb : next a = some b := hlink.1
      rw [hb] at hlink ⊢
      refine ⟨hlink.congr hkeep, ?_, hnd.2, fun _ => cons_ne_nil _ _⟩
      rw [h.tail_eq]
      exact List.getLast?_cons_cons

end Linked
