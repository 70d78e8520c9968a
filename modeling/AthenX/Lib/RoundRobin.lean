import Mathlib

/-!
# Round robin

One of several tasks has its turn, the others wait in a queue. New tasks arrive at its end; when a
turn ends, the first one is next and the task whose turn it was goes to the end. A task that is
alone keeps its turn. All the fairness there is follows from `exists_turns_append`.
-/

namespace RoundRobin

open List

variable {α : Type*}

/-- A task arrives, or a turn ends. -/
inductive Event (α : Type*) where
  | arrive (a : α)
  | turn
  deriving DecidableEq, Repr

/-- One event. The state is the task that has its turn, and the queue. -/
def step (s : α × List α) : Event α → α × List α
  | .arrive a => (s.1, s.2 ++ [a])
  | .turn     =>
    match s.2 with
    | []     => s
    | n :: l => (n, l ++ [s.1])

/-- The state after some events. -/
def run (s : α × List α) (es : List (Event α)) : α × List α := es.foldl step s

/-- The tasks that get a turn, in order. -/
def turns (s : α × List α) : List (Event α) → List α
  | []              => []
  | .arrive a :: es => turns (step s (.arrive a)) es
  | .turn :: es     => (step s .turn).1 :: turns (step s .turn) es

@[simp] theorem run_nil (s : α × List α) : run s [] = s := rfl

@[simp] theorem run_cons (s : α × List α) (e : Event α) (es : List (Event α)) :
    run s (e :: es) = run (step s e) es := rfl

theorem run_append (s : α × List α) (es es' : List (Event α)) :
    run s (es ++ es') = run (run s es) es' :=
  foldl_append

theorem turns_append (s : α × List α) (es es' : List (Event α)) :
    turns s (es ++ es') = turns s es ++ turns (run s es) es' := by
  induction es generalizing s with
  | nil => rfl
  | cons e es ih =>
    cases e with
    | arrive a => exact ih _
    | turn => exact congrArg (_ :: ·) (ih _)

/-! ### The queue -/

/-- A turn ends: its task goes behind the queue. -/
theorem cons_step_turn (s : α × List α) (x : List α) :
    (step s .turn).1 :: ((step s .turn).2 ++ x) = s.2 ++ s.1 :: x := by
  obtain ⟨c, l⟩ := s
  cases l with
  | nil => rfl
  | cons n l => simp [step]

/-- **First in, first out.** Those who had a turn, and those who wait, start with the queue. -/
theorem exists_turns_append (s : α × List α) (es : List (Event α)) :
    ∃ x, turns s es ++ (run s es).2 = s.2 ++ x := by
  induction es generalizing s with
  | nil => exact ⟨[], (append_nil _).symm⟩
  | cons e es ih =>
    obtain ⟨x, hx⟩ := ih (step s e)
    cases e with
    | arrive a =>
      refine ⟨a :: x, hx.trans ?_⟩
      show s.2 ++ [a] ++ x = _
      rw [append_assoc, singleton_append]
    | turn => exact ⟨s.1 :: x, (congrArg (_ :: ·) hx).trans (cons_step_turn s x)⟩

/-- If a turn ends first, then its task is the next one behind the queue. -/
theorem exists_turns_turn_append (s : α × List α) (es : List (Event α)) :
    ∃ x, turns s (.turn :: es) ++ (run s (.turn :: es)).2 = s.2 ++ s.1 :: x := by
  obtain ⟨x, hx⟩ := exists_turns_append (step s .turn) es
  exact ⟨x, (congrArg (_ :: ·) hx).trans (cons_step_turn s x)⟩

/-! ### Fairness -/

section

variable {l x ts q : List α} {k : ℕ}

private theorem getElem?_of_append_eq (h : ts ++ q = l ++ x) (hk : k < ts.length)
    (hl : k < l.length) : ts[k]? = l[k]? := by
  rw [← List.getElem?_append_left hk, h, List.getElem?_append_left hl]

private theorem take_of_append_eq (h : ts ++ q = l ++ x) (hk : k ≤ ts.length)
    (hl : k ≤ l.length) : ts.take k = l.take k := by
  rw [← List.take_append_of_le_length hk, h, List.take_append_of_le_length hl]

end

/-- **Bounded waiting.** The task at position `k` of the queue gets the turn with that number. -/
theorem getElem?_turns {s : α × List α} {es : List (Event α)} {k : ℕ} {a : α}
    (ha : s.2[k]? = some a) (hk : k < (turns s es).length) : (turns s es)[k]? = some a := by
  obtain ⟨x, hx⟩ := exists_turns_append s es
  obtain ⟨hl, -⟩ := List.getElem?_eq_some_iff.mp ha
  rw [getElem?_of_append_eq hx hk hl, ha]

/-- And it gets none before. -/
theorem notMem_take_turns {s : α × List α} {es : List (Event α)} {k : ℕ} {a : α}
    (hnd : s.2.Nodup) (ha : s.2[k]? = some a) (hk : k < (turns s es).length) :
    a ∉ (turns s es).take k := by
  obtain ⟨x, hx⟩ := exists_turns_append s es
  obtain ⟨hl, rfl⟩ := List.getElem?_eq_some_iff.mp ha
  rw [take_of_append_eq hx (Nat.le_of_lt hk) (Nat.le_of_lt hl)]
  intro hmem
  obtain ⟨i, hi, heq⟩ := mem_take_iff_getElem.mp hmem
  have hik : i = k := (hnd.getElem_inj_iff).mp heq
  omega

/-- The task whose turn ends gets the next one when the whole queue had one. -/
theorem getElem?_turns_turn {s : α × List α} {es : List (Event α)}
    (hk : s.2.length < (turns s (.turn :: es)).length) :
    (turns s (.turn :: es))[s.2.length]? = some s.1 := by
  obtain ⟨x, hx⟩ := exists_turns_turn_append s es
  rw [← List.getElem?_append_left hk, hx, List.getElem?_append_right (Nat.le_refl _), Nat.sub_self]
  rfl

/-- **Between two turns** of a task, each task of the queue has exactly one. -/
theorem count_take_turns [DecidableEq α] {s : α × List α} {es : List (Event α)} {j : ℕ}
    (hnd : s.2.Nodup) (hc : s.1 ∉ s.2) (hj : (turns s (.turn :: es))[j]? = some s.1)
    (hfirst : s.1 ∉ (turns s (.turn :: es)).take j) {a : α} (ha : a ∈ s.2) :
    ((turns s (.turn :: es)).take j).count a = 1 := by
  obtain ⟨x, hx⟩ := exists_turns_turn_append s es
  obtain ⟨hlt, hget⟩ := List.getElem?_eq_some_iff.mp hj
  -- the next turn is not earlier than behind the queue, and not later
  have hle : s.2.length ≤ j := by
    by_contra hnot
    have hl : j < s.2.length := Nat.lt_of_not_le hnot
    rw [getElem?_of_append_eq hx hlt hl] at hj
    exact hc (mem_of_getElem? hj)
  have hge : j ≤ s.2.length := by
    by_contra hnot
    have hl : s.2.length < j := Nat.lt_of_not_le hnot
    refine hfirst (mem_of_getElem? (i := s.2.length) ?_)
    rw [List.getElem?_take_of_lt hl]
    exact getElem?_turns_turn (Nat.lt_trans hl hlt)
  obtain rfl : j = s.2.length := Nat.le_antisymm hge hle
  rw [take_of_append_eq hx (Nat.le_of_lt hlt) (Nat.le_refl _), take_length]
  exact count_eq_one_of_mem hnd ha

end RoundRobin
