import Mathlib

/-!
# Singly linked chains in a store of pointers

A C program threads a list through its records with a `next` field. The field is a function `next :
α → Option α` on the record identities, `none` being the null pointer, and the list is what is met
on following it.
-/

namespace Linked

open List

variable {α : Type*} {next next' : α → Option α} {a : α} {l : List α} {p q head tail : Option α}

/-! ### Segments -/

/-- Following `next` from `p` meets exactly the records `l`, and then `q`. -/
def Seg (next : α → Option α) : Option α → List α → Option α → Prop
  | p, [], q => p = q
  | p, a :: l, q => p = some a ∧ Seg next (next a) l q

/-- Following `next` from `p` meets exactly the records `l`, and then null. -/
def Chain (next : α → Option α) (p : Option α) (l : List α) : Prop := Seg next p l none

@[simp] theorem seg_nil : Seg next p [] q ↔ p = q := Iff.rfl

@[simp] theorem seg_cons : Seg next p (a :: l) q ↔ p = some a ∧ Seg next (next a) l q := Iff.rfl

@[simp] theorem chain_nil : Chain next p [] ↔ p = none := Iff.rfl

@[simp] theorem chain_cons : Chain next p (a :: l) ↔ p = some a ∧ Chain next (next a) l := Iff.rfl

theorem seg_append : ∀ {l1 l2 : List α} {p q : Option α},
    Seg next p (l1 ++ l2) q ↔ ∃ r, Seg next p l1 r ∧ Seg next r l2 q := by
  intro l1
  induction l1 with
  | nil => intro l2 p q; simp
  | cons a l1 ih =>
    intro l2 p q
    simp only [cons_append, seg_cons, ih]
    constructor
    · rintro ⟨hp, r, h1, h2⟩; exact ⟨r, ⟨hp, h1⟩, h2⟩
    · rintro ⟨r, ⟨hp, h1⟩, h2⟩; exact ⟨hp, r, h1, h2⟩

theorem chain_append {l1 l2 : List α} :
    Chain next p (l1 ++ l2) ↔ ∃ r, Seg next p l1 r ∧ Chain next r l2 := seg_append

/-- The start of a segment is its first record, or its end if it has none. -/
theorem Seg.start_eq (h : Seg next p l q) : p = (l.head?).or q := by
  cases l with
  | nil => simpa using h
  | cons a l => simpa using h.1

theorem Chain.eq_nil {l : List α} (h : Chain next none l) : l = [] := by
  cases l with
  | nil => rfl
  | cons a l => exact absurd h.1 (by simp)

theorem Chain.eq_cons (h : Chain next (some a) l) : ∃ l', l = a :: l' ∧ Chain next (next a) l' := by
  cases l with
  | nil => exact absurd h (by simp)
  | cons b l =>
    cases h.1
    exact ⟨l, rfl, h.2⟩

/-- A chain with a record ends at one that has no next. -/
theorem Chain.exists_next_eq_none : ∀ {l : List α} {a : α}, Chain next (some a) l →
    ∃ b ∈ l, next b = none := by
  intro l
  induction l with
  | nil => intro a h; cases h
  | cons b l ih =>
    intro a h
    cases hb : next b with
    | none => exact ⟨b, mem_cons_self, hb⟩
    | some c =>
      have hl := h.2
      rw [hb] at hl
      obtain ⟨d, hd, hnone⟩ := ih hl
      exact ⟨d, mem_cons_of_mem b hd, hnone⟩

/-- Records that are linked one after the other. -/
theorem chain_map_range : ∀ {k : ℕ} {f : ℕ → α},
    (∀ t < k + 1, next (f t) = if t < k then some (f (t + 1)) else none) →
    Chain next (some (f 0)) ((List.range (k + 1)).map f) := by
  intro k
  induction k with
  | zero => intro f h; exact ⟨rfl, h 0 Nat.zero_lt_one⟩
  | succ k ih =>
    intro f h
    rw [range_succ_eq_map, map_cons, map_map]
    refine ⟨rfl, ?_⟩
    rw [h 0 (Nat.succ_pos _)]
    refine ih (f := f ∘ Nat.succ) fun t ht => ?_
    have ht' := h (t + 1) (Nat.succ_lt_succ ht)
    simp only [Nat.add_lt_add_iff_right] at ht'
    exact ht'

/-- A segment depends only on the links of its own records. -/
theorem Seg.congr : ∀ {l : List α} {p q : Option α}, Seg next p l q →
    (∀ a ∈ l, next' a = next a) → Seg next' p l q := by
  intro l
  induction l with
  | nil => intro p q h _; exact h
  | cons a l ih =>
    intro p q h hn
    obtain ⟨hp, h⟩ := h
    refine ⟨hp, ?_⟩
    rw [hn a mem_cons_self]
    exact ih h fun b hb => hn b (mem_cons_of_mem _ hb)

theorem Chain.congr (h : Chain next p l)
    (hn : ∀ a ∈ l, next' a = next a) : Chain next' p l := Seg.congr h hn

/-- Consecutive records of a chain are met one after the other. -/
theorem Chain.seg_of_infix {run : List α} (h : Chain next p l)
    (hrun : run <:+: l) : ∃ r q, Seg next r run q := by
  obtain ⟨s, t, rfl⟩ := hrun
  obtain ⟨q, hq, -⟩ := chain_append.mp h
  obtain ⟨r, -, hr⟩ := seg_append.mp hq
  exact ⟨r, q, hr⟩

/-! ### Chains that end -/

/-- A chain is determined by its head: `next` is a function, and null ends it. -/
theorem Chain.unique : ∀ {l l' : List α} {p : Option α},
    Chain next p l → Chain next p l' → l = l' := by
  intro l
  induction l with
  | nil =>
    intro l' p h h'
    rw [chain_nil.mp h] at h'
    exact h'.eq_nil.symm
  | cons a l ih =>
    intro l' p h h'
    rw [h.1] at h'
    obtain ⟨l'', rfl, h''⟩ := h'.eq_cons
    rw [ih h.2 h'']

/-- A chain that ends at null meets no record twice. -/
theorem Chain.nodup : ∀ {l : List α} {p : Option α}, Chain next p l → l.Nodup := by
  intro l
  induction l with
  | nil => intro p _; exact nodup_nil
  | cons a l ih =>
    intro p h
    refine nodup_cons.mpr ⟨?_, ih h.2⟩
    intro hmem
    obtain ⟨l1, l2, rfl⟩ := append_of_mem hmem
    obtain ⟨r, -, hr⟩ := chain_append.mp h.2
    have heq := Chain.unique hr.2 h.2
    have := congrArg List.length heq
    simp at this
    omega

/-- A record of a chain is arrived at. -/
theorem Chain.exists_seg (h : Chain next p l) (ha : a ∈ l) : ∃ l', Seg next p l' (some a) := by
  obtain ⟨l1, l2, rfl⟩ := append_of_mem ha
  obtain ⟨r, hseg, hr⟩ := chain_append.mp h
  rw [hr.1] at hseg
  exact ⟨l1, hseg⟩

/-- Only the records of a chain are arrived at. -/
theorem Chain.mem_of_seg : ∀ {l l' : List α} {p : Option α} {a : α}, Chain next p l →
    Seg next p l' (some a) → a ∈ l := by
  intro l
  induction l with
  | nil =>
    intro l' p a h hseg
    rw [chain_nil.mp h] at hseg
    cases l' <;> simp at hseg
  | cons b l ih =>
    intro l' p a h hseg
    rw [h.1] at hseg
    cases l' with
    | nil => simp [Option.some.inj (seg_nil.mp hseg)]
    | cons c l' =>
      cases hseg.1
      exact mem_cons_of_mem _ (ih h.2 hseg.2)

/-! ### Queues -/

/-- A chain from `head` whose last record is `tail` (null when it is empty). -/
structure Queue (next : α → Option α) (head tail : Option α) (l : List α) : Prop where
  chain : Chain next head l
  tail_eq : tail = l.getLast?

theorem Queue.nodup (h : Queue next head tail l) : l.Nodup := h.chain.nodup

theorem queue_nil : Queue next head tail [] ↔ head = none ∧ tail = none := by
  constructor
  · rintro ⟨hc, ht⟩; exact ⟨hc, ht⟩
  · rintro ⟨hc, ht⟩; exact ⟨hc, ht⟩

theorem Queue.eq_cons_of_head (h : Queue next (some a) tail l) : ∃ l', l = a :: l' := by
  obtain ⟨l', rfl, -⟩ := h.chain.eq_cons
  exact ⟨l', rfl⟩

theorem Queue.congr (h : Queue next head tail l)
    (hn : ∀ a ∈ l, next' a = next a) : Queue next' head tail l :=
  ⟨h.chain.congr hn, h.tail_eq⟩

/-- **Removing the head** clears the tail pointer when the queue becomes empty. -/
theorem Queue.dequeue (h : Queue next (some a) tail (a :: l)) (hkeep : ∀ b ∈ l, next' b = next b) :
    Queue next' (next a) (if next a = none then none else tail) l := by
  have hc : Chain next (next a) l := h.chain.2
  refine ⟨hc.congr hkeep, ?_⟩
  cases l with
  | nil => rw [if_pos (chain_nil.mp hc)]; rfl
  | cons b l =>
    rw [if_neg (by rw [hc.1]; simp), h.tail_eq]
    simp [List.getLast?_cons_cons]

end Linked
