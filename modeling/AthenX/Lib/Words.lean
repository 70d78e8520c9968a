import Mathlib

/-!
# Words

A text is cut at its separators. The words are the pieces that are not empty, so it does not matter
how many separators stand between, in front of or behind them.
-/

namespace Words

open List

variable {α : Type*} {sep : α → Bool} {c d : α} {s t w : List α}

/-- The words of a text. -/
def words (sep : α → Bool) (s : List α) : List (List α) :=
  (s.splitOnP sep).filter fun w => !w.isEmpty

@[simp] theorem words_nil : words sep [] = [] := by simp [words]

/-- A separator parts the words in front of it from those behind it. -/
theorem words_append_cons (hc : sep c = true) :
    words sep (s ++ c :: t) = words sep s ++ words sep t := by
  simp [words, splitOnP_append_cons s t hc]

@[simp] theorem words_cons (hc : sep c = true) : words sep (c :: s) = words sep s := by
  simpa using words_append_cons (s := []) hc

/-- A text without separators is one word. -/
theorem words_eq_singleton (hw : ∀ x ∈ w, sep x = false) (hne : w ≠ []) : words sep w = [w] := by
  simp [words, splitOnP_eq_singleton hw, hne]

/-- Separators in front of a text do not count. -/
theorem words_append_of_sep (hs : ∀ x ∈ s, sep x = true) : words sep (s ++ t) = words sep t := by
  induction s with
  | nil => rfl
  | cons c s ih =>
    obtain ⟨hc, hs⟩ := forall_mem_cons.mp hs
    rw [cons_append, words_cons hc, ih hs]

/-- The first word, and those behind the separator that ends it. -/
theorem words_append_word (hw : ∀ x ∈ w, sep x = false) (hne : w ≠ [])
    (ht : ∀ x ∈ t.head?, sep x = true) : words sep (w ++ t) = w :: words sep t.tail := by
  cases t with
  | nil => rw [append_nil, words_eq_singleton hw hne, tail_nil, words_nil]
  | cons d t =>
    rw [words_append_cons (ht d rfl), words_eq_singleton hw hne]
    rfl

/-- There is no word if there are only separators. -/
theorem words_eq_nil_iff : words sep s = [] ↔ ∀ x ∈ s, sep x = true := by
  induction s with
  | nil => simp
  | cons c s ih =>
    by_cases hc : sep c = true
    · rw [words_cons hc, ih]
      simp [hc]
    · refine iff_of_false ?_ fun hall => hc (hall c mem_cons_self)
      obtain ⟨w, ws, hw⟩ := exists_cons_of_ne_nil (splitOnP_ne_nil sep s)
      simp [words, splitOnP_cons_eq_if_modifyHead, hc, hw]

/-- The words of a text, with their places when the text begins at `i`: separators, a word, and the
separator behind it unless the text ends there. -/
inductive Cut (sep : α → Bool) : ℕ → List α → List (ℕ × List α) → Prop
  | none {i : ℕ} {s : List α} : (∀ x ∈ s, sep x = true) → Cut sep i s []
  | word {i : ℕ} {s w t : List α} {ts : List (ℕ × List α)} : (∀ x ∈ s, sep x = true) →
      (∀ x ∈ w, sep x = false) → w ≠ [] → (∀ x ∈ t.head?, sep x = true) →
      Cut sep (i + s.length + w.length + (t.take 1).length) t.tail ts →
      Cut sep i (s ++ (w ++ t)) ((i + s.length, w) :: ts)

/-- Cutting commutes with a map of the characters. -/
theorem Cut.map {β : Type*} {f : β → α} {i : ℕ} {s : List β} {ts : List (ℕ × List β)}
    (h : Cut (fun x => sep (f x)) i s ts) :
    Cut sep i (s.map f) (ts.map fun x => (x.1, x.2.map f)) := by
  induction h with
  | none hs => exact .none (by simpa using hs)
  | @word i s w t ts hs hw hne ht _ ih =>
    have hcut := Cut.word (s := s.map f) (w := w.map f) (t := t.map f) (by simpa using hs)
      (by simpa using hw) (by simpa using hne) (by simpa using ht) (by simpa using ih)
    simpa using hcut

/-- The words with their places, `k` of them at most. -/
def wordsFrom (sep : α → Bool) : ℕ → ℕ → List α → List (ℕ × List α)
  | 0, _, _ => []
  | k + 1, i, s =>
      let start := i + (s.takeWhile sep).length
      let v := s.dropWhile sep
      let w := v.takeWhile fun x => !sep x
      let t := v.dropWhile fun x => !sep x
      if v.isEmpty then []
      else (start, w) :: wordsFrom sep k (start + w.length + (t.take 1).length) t.tail

/-- **They cut the text.** -/
theorem cut_wordsFrom (sep : α → Bool) {k : ℕ} (hk : s.length ≤ k) (i : ℕ) :
    Cut sep i s (wordsFrom sep k i s) := by
  induction k generalizing s i with
  | zero =>
    obtain rfl := length_eq_zero_iff.mp (Nat.le_zero.mp hk)
    exact .none (by simp)
  | succ k ih =>
    rw [wordsFrom]
    have hgap : ∀ x ∈ s.takeWhile sep, sep x = true := fun x hx => mem_takeWhile_imp hx
    have hall := takeWhile_append_dropWhile (p := sep) (l := s)
    have hhead := List.head?_dropWhile_not sep s
    generalize s.takeWhile sep = g at hgap hall ⊢
    generalize s.dropWhile sep = v at hall hhead ⊢
    subst hall
    cases v with
    | nil =>
      rw [append_nil]
      exact .none hgap
    | cons c v =>
      have hc : sep c = false := by simpa using hhead
      have hword : ∀ x ∈ (c :: v).takeWhile (fun x => !sep x), sep x = false := fun x hx => by
        simpa using mem_takeWhile_imp hx
      have hne : (c :: v).takeWhile (fun x => !sep x) ≠ [] := by simp [hc]
      have hall := takeWhile_append_dropWhile (p := fun x => !sep x) (l := c :: v)
      have hend := List.head?_dropWhile_not (fun x => !sep x) (c :: v)
      rw [if_neg (by simp)]
      generalize (c :: v).takeWhile (fun x => !sep x) = w at hword hne hall ⊢
      generalize (c :: v).dropWhile (fun x => !sep x) = t at hall hend ⊢
      have ht : ∀ x ∈ t.head?, sep x = true := fun x hx => by
        rw [Option.mem_def.mp hx] at hend
        simpa using hend
      have hpos := length_pos_iff.mpr hne
      rw [← hall, length_append, length_append] at hk
      rw [← hall]
      exact .word hgap hword hne ht (ih (by rw [length_tail]; omega) _)

/-- The pieces are the words. -/
theorem Cut.words_eq {i : ℕ} {ts : List (ℕ × List α)} (h : Cut sep i s ts) :
    words sep s = ts.map Prod.snd := by
  induction h with
  | none hs => exact words_eq_nil_iff.mpr hs
  | word hs hw hne ht _ ih => rw [words_append_of_sep hs, words_append_word hw hne ht, ih, map_cons]

/-- A word is a part of the text without separators. -/
theorem Cut.of_mem {i : ℕ} {ts : List (ℕ × List α)} (h : Cut sep i s ts) :
    ∀ x ∈ ts, x.2 ⊆ s ∧ ∀ a ∈ x.2, sep a = false := by
  induction h with
  | none => simp
  | @word i s w t _ _ hw _ _ _ ih =>
    refine forall_mem_cons.mpr ⟨⟨fun a ha => by simp [show a ∈ w from ha], hw⟩, fun x hx => ?_⟩
    refine ⟨fun a ha => ?_, (ih x hx).2⟩
    simp [mem_of_mem_tail ((ih x hx).1 ha)]

theorem of_mem_words (hw : w ∈ words sep s) : w ⊆ s ∧ ∀ a ∈ w, sep a = false := by
  have hcut := cut_wordsFrom sep (Nat.le_refl s.length) 0
  rw [hcut.words_eq] at hw
  obtain ⟨x, hx, rfl⟩ := mem_map.mp hw
  exact hcut.of_mem x hx

/-- A word is not empty, and its place is in the text. -/
theorem Cut.bounds {i : ℕ} {ts : List (ℕ × List α)} (h : Cut sep i s ts) :
    ∀ x ∈ ts, x.2 ≠ [] ∧ i ≤ x.1 ∧ x.1 + x.2.length ≤ i + s.length := by
  induction h with
  | none => simp
  | @word _ _ _ t _ _ _ hne _ _ ih =>
    have htail : (t.take 1).length + t.tail.length = t.length := by cases t <;> simp; omega
    simp only [length_append]
    refine forall_mem_cons.mpr ⟨⟨hne, by dsimp only; omega, by dsimp only; omega⟩, fun x hx => ?_⟩
    obtain ⟨hx, hle, hlen⟩ := ih x hx
    exact ⟨hx, by omega, by omega⟩

/-! ### Runs of separators -/

/-- Every run of separators replaced by its last one. Pieces are all separators or all letters. -/
def collapse (sep : α → Bool) (s : List α) : List α :=
  ((s.splitBy fun a b => sep a == sep b).map fun g =>
    if g.head?.any sep then g.getLast?.toList else g).flatten

/-- The first two letters are in the same run, or start two of them. -/
theorem splitBy_cons_cons (r : α → α → Bool) (a b : α) (l : List α) :
    (a :: b :: l).splitBy r =
      if r a b then ((b :: l).splitBy r).modifyHead (a :: ·) else [a] :: (b :: l).splitBy r := by
  split
  · next hab =>
    have hne := splitBy_ne_nil (r := r) |>.mpr (cons_ne_nil b l)
    obtain ⟨g, gs, hg⟩ := exists_cons_of_ne_nil hne
    have hhead := head_head_splitBy r (cons_ne_nil b l)
    obtain ⟨hflat, hnil, hchain, hruns⟩ := splitBy_eq_iff.mp hg
    simp only [hg, head_cons] at hhead
    have hgne : g ≠ [] := fun hc => hnil (by simp [hc])
    rw [hg, modifyHead_cons, splitBy_eq_iff]
    refine ⟨by simp [hflat], ?_, ?_, ?_⟩
    · simp only [mem_cons, not_or] at hnil ⊢
      exact ⟨(cons_ne_nil a g).symm, hnil.2⟩
    · intro m hm
      rcases mem_cons.mp hm with rfl | hm
      · refine isChain_cons.mpr ⟨?_, hchain g mem_cons_self⟩
        intro y hy
        rw [List.head?_eq_some_head hgne, Option.mem_some, hhead] at hy
        rw [← hy]
        exact hab
      · exact hchain m (mem_cons_of_mem g hm)
    · rw [isChain_cons] at hruns ⊢
      refine ⟨fun y hy => ?_, hruns.2⟩
      obtain ⟨_, hyne, hlast⟩ := hruns.1 y hy
      exact ⟨cons_ne_nil a g, hyne, by rw [getLast_cons hgne]; exact hlast⟩
  · next hab =>
    have happend := splitBy_append_cons (l := [a]) l (by simpa using hab)
    rw [singleton_append] at happend
    rw [happend]
    rfl

@[simp] theorem collapse_nil : collapse sep [] = [] := by simp [collapse]

@[simp] theorem collapse_singleton : collapse sep [c] = [c] := by
  rw [collapse, List.splitBy_of_isChain (List.cons_ne_nil c []) (by simp)]
  cases hc : sep c <;> simp [hc]

theorem collapse_cons_cons :
    collapse sep (c :: d :: s) =
      if sep c && sep d then collapse sep (d :: s) else c :: collapse sep (d :: s) := by
  have hne := splitBy_ne_nil (r := fun a b => sep a == sep b) |>.mpr (cons_ne_nil d s)
  obtain ⟨g, gs, hg⟩ := exists_cons_of_ne_nil hne
  have hgne : g ≠ [] := ne_nil_of_mem_splitBy (by rw [hg]; exact mem_cons_self)
  have hhead : g.head hgne = d := by
    have := head_head_splitBy (fun a b => sep a == sep b) (cons_ne_nil d s)
    simpa only [hg, head_cons] using this
  obtain ⟨e, g, rfl⟩ := exists_cons_of_ne_nil hgne
  obtain rfl : e = d := hhead
  unfold collapse
  rw [splitBy_cons_cons, hg]
  cases hc : sep c <;> cases hd : sep e <;> simp [hc, hd]

end Words
