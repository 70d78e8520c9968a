import Mathlib

/-!
# Strings in memory

Memory is a function from addresses to bytes, and a string is a sequence of bytes that are not zero,
with a zero behind it. The loops that look for its end take a bound on their iterations.
-/

namespace CString

open List Function

/-- `isspace`. -/
def isspace (c : UInt8) : Bool :=
  c == 32 || c == 9 || c == 10 || c == 11 || c == 12 || c == 13

theorem isspace_eq_false {c : UInt8} {p : UInt8 → Bool} (hc : p c = true)
    (hp : ∀ e ∈ [32, 9, 10, 11, 12, 13], p e = false) : isspace c = false := by
  have hne : ∀ e ∈ [32, 9, 10, 11, 12, 13], c ≠ e := by
    rintro e he rfl
    rw [hp c he] at hc
    cases hc
  simpa [isspace, and_assoc] using hne

/-- The bytes of memory. -/
abbrev Memory := ℕ → UInt8

/-- Write bytes from an address on. -/
def poke (m : Memory) (p : ℕ) : List UInt8 → Memory
  | [] => m
  | c :: s => poke (Function.update m p c) (p + 1) s

/-- The string at an address. -/
def text (m : Memory) : ℕ → ℕ → Option (List UInt8)
  | 0, _ => none
  | k + 1, p => if m p = 0 then some [] else (text m k (p + 1)).map (m p :: ·)

/-- Copy the bytes up to the zero, one by one. -/
def strcpy : ℕ → Memory → ℕ → ℕ → Option Memory
  | 0, _, _, _ => none
  | k + 1, m, dst, src =>
      if m src = 0 then some (Function.update m dst (m src))
      else strcpy k (Function.update m dst (m src)) (dst + 1) (src + 1)

/-- Append `s` to the string at an address. -/
def strcat (k : ℕ) (m : Memory) (dst : ℕ) (s : List UInt8) : Option Memory :=
  (text m k dst).map fun t => poke m (dst + t.length) (s ++ [0])

/-- There is the string `s` at the address `p`. -/
def Holds (m : Memory) (p : ℕ) : List UInt8 → Prop
  | [] => m p = 0
  | c :: s => m p = c ∧ c ≠ 0 ∧ Holds m (p + 1) s

variable {m m' : Memory} {p q k dst src : ℕ} {s t : List UInt8}

/-! ### The string at an address -/

theorem Holds.unique (hs : Holds m p s) (ht : Holds m p t) : s = t := by
  induction s generalizing p t with
  | nil =>
    cases t with
    | nil => rfl
    | cons d t => exact absurd (ht.1.symm.trans hs) ht.2.1
  | cons c s ih =>
    cases t with
    | nil => exact absurd (hs.1.symm.trans ht) hs.2.1
    | cons d t => rw [hs.1.symm.trans ht.1, ih hs.2.2 ht.2.2]

theorem Holds.ne_zero (hs : Holds m p s) : ∀ c ∈ s, c ≠ 0 := by
  induction s generalizing p with
  | nil => simp
  | cons c s ih => exact forall_mem_cons.mpr ⟨hs.2.1, ih hs.2.2⟩

/-- A string is in its bytes and in the zero. -/
theorem Holds.congr (hs : Holds m p s) (h : ∀ i, p ≤ i → i ≤ p + s.length → m' i = m i) :
    Holds m' p s := by
  induction s generalizing p with
  | nil =>
    rw [Holds, h p (Nat.le_refl p) (Nat.le_refl p)]
    exact hs
  | cons c s ih =>
    simp only [length_cons] at h
    refine ⟨(h p (Nat.le_refl p) (by omega)).trans hs.1, hs.2.1, ih hs.2.2 fun i hi hle => ?_⟩
    exact h i (by omega) (by omega)

theorem holds_of_text (h : text m k p = some s) : Holds m p s := by
  induction k generalizing p s with
  | zero => cases h
  | succ k ih =>
    unfold text at h
    split at h
    · next hz =>
      cases h
      exact hz
    · next hz =>
      obtain ⟨t, ht, rfl⟩ := Option.map_eq_some_iff.mp h
      exact ⟨rfl, hz, ih ht⟩

theorem text_eq_some (hs : Holds m p s) (hk : s.length < k) : text m k p = some s := by
  induction k generalizing p s with
  | zero => exact absurd hk (Nat.not_lt_zero _)
  | succ k ih =>
    cases s with
    | nil => exact if_pos hs
    | cons c s =>
      obtain ⟨rfl, hne, hs⟩ := hs
      rw [text, if_neg hne, ih hs (by simpa using hk)]
      rfl

/-- The byte behind a string. -/
theorem Holds.terminator (hs : Holds m p s) : m (p + s.length) = 0 := by
  induction s generalizing p with
  | nil => exact hs
  | cons c s ih =>
    rw [length_cons, Nat.add_comm s.length, ← Nat.add_assoc]
    exact ih hs.2.2

theorem Holds.of_append (hs : Holds m p (s ++ t)) : Holds m (p + s.length) t := by
  induction s generalizing p with
  | nil => exact hs
  | cons c s ih =>
    rw [length_cons, Nat.add_comm s.length, ← Nat.add_assoc]
    exact ih hs.2.2

theorem holds_of_getElem (hs : ∀ i (h : i < s.length), m (p + i) = s[i]) (hz : ∀ c ∈ s, c ≠ 0)
    (hend : m (p + s.length) = 0) : Holds m p s := by
  induction s generalizing p with
  | nil => exact hend
  | cons c s ih =>
    obtain ⟨hc, hz⟩ := forall_mem_cons.mp hz
    rw [length_cons, Nat.add_comm s.length, ← Nat.add_assoc] at hend
    refine ⟨hs 0 (Nat.succ_pos _), hc, ih (fun i hi => ?_) hz hend⟩
    rw [Nat.add_assoc, Nat.add_comm 1]
    exact hs (i + 1) (Nat.succ_lt_succ hi)

/-- A zero inside of a string ends it there. -/
theorem Holds.cut (hs : Holds m p (s ++ t)) : Holds (update m (p + s.length) 0) p s := by
  induction s generalizing p with
  | nil => exact update_self p 0 m
  | cons c s ih =>
    rw [length_cons, Nat.add_comm s.length, ← Nat.add_assoc]
    refine ⟨?_, hs.2.1, ih hs.2.2⟩
    rw [update_of_ne (by omega)]
    exact hs.1

/-! ### Writing -/

theorem poke_of_lt (h : q < p) : poke m p s q = m q := by
  induction s generalizing m p with
  | nil => rfl
  | cons c s ih => rw [poke, ih (by omega), update_of_ne (by omega)]

theorem poke_of_le (h : p + s.length ≤ q) : poke m p s q = m q := by
  induction s generalizing m p with
  | nil => rfl
  | cons c s ih =>
    simp only [length_cons] at h
    rw [poke, ih (by omega), update_of_ne (by omega)]

theorem poke_getElem {i : ℕ} (h : i < s.length) : poke m p s (p + i) = s[i] := by
  induction s generalizing m p i with
  | nil => exact absurd h (Nat.not_lt_zero i)
  | cons c s ih =>
    cases i with
    | zero => exact (poke_of_lt (Nat.lt_succ_self p)).trans (update_self p c m)
    | succ i =>
      rw [poke, show p + (i + 1) = p + 1 + i by omega]
      exact ih (Nat.lt_of_succ_lt_succ h)

/-- **What is written is there.** -/
theorem holds_poke (hs : ∀ c ∈ s, c ≠ 0) : Holds (poke m p (s ++ [0])) p s := by
  induction s generalizing m p with
  | nil => exact update_self p 0 m
  | cons c s ih =>
    obtain ⟨hc, hs⟩ := forall_mem_cons.mp hs
    refine ⟨?_, hc, ih hs⟩
    rw [cons_append, poke, poke_of_lt (by omega), update_self]

/-- A string that is apart from what is written is still there. -/
theorem Holds.poke (ht : Holds m q t) (h : q + t.length < p ∨ p + s.length ≤ q) :
    Holds (poke m p s) q t := by
  refine ht.congr fun i hi hle => ?_
  rcases h with h | h
  · exact poke_of_lt (by omega)
  · exact poke_of_le (by omega)

/-- Two strings, the second one where the first one ends. -/
theorem Holds.append (hs : Holds m p s) (ht : ∀ c ∈ t, c ≠ 0) :
    Holds (CString.poke m (p + s.length) (t ++ [0])) p (s ++ t) := by
  induction s generalizing p with
  | nil => exact holds_poke ht
  | cons c s ih =>
    have hrest := ih hs.2.2
    rw [show p + (c :: s).length = p + 1 + s.length by simp only [length_cons]; omega]
    exact ⟨(poke_of_lt (by omega)).trans hs.1, hs.2.1, hrest⟩

theorem strcat_eq (h : strcat k m p t = some m') (hs : Holds m p s) :
    m' = poke m (p + s.length) (t ++ [0]) := by
  obtain ⟨u, hu, rfl⟩ := Option.map_eq_some_iff.mp h
  rw [(holds_of_text hu).unique hs]

theorem strcat_eq_some (hs : Holds m p s) (hk : s.length < k) :
    strcat k m p t = some (poke m (p + s.length) (t ++ [0])) := by
  rw [strcat, text_eq_some hs hk, Option.map_some]

/-- **The copying loop** writes the string, if source and destination are apart. -/
theorem strcpy_eq_ite (hs : Holds m src s)
    (hapart : src + s.length < dst ∨ dst + s.length < src) :
    strcpy k m dst src = if s.length < k then some (poke m dst (s ++ [0])) else none := by
  induction s generalizing m dst src k with
  | nil =>
    cases k with
    | zero => rfl
    | succ k =>
      have hz : m src = 0 := hs
      rw [strcpy, hz, length_nil, if_pos k.succ_pos]
      rfl
  | cons c s ih =>
    cases k with
    | zero => rfl
    | succ k =>
      obtain ⟨hc, hne, hs⟩ := hs
      simp only [length_cons] at hapart
      rw [strcpy, if_neg (hc ▸ hne), hc,
        ih (hs.congr fun i hi hle => update_of_ne (by omega) _ _) (by omega)]
      exact if_congr Nat.succ_lt_succ_iff.symm rfl rfl

theorem strcpy_eq (h : strcpy k m dst src = some m') (hs : Holds m src s)
    (hapart : src + s.length < dst ∨ dst + s.length < src) : m' = poke m dst (s ++ [0]) := by
  rw [strcpy_eq_ite hs hapart, Option.ite_none_right_eq_some] at h
  exact (Option.some.inj h.2).symm

theorem strcpy_eq_some (hs : Holds m src s) (hk : s.length < k)
    (hapart : src + s.length < dst ∨ dst + s.length < src) :
    strcpy k m dst src = some (poke m dst (s ++ [0])) := by
  rw [strcpy_eq_ite hs hapart, if_pos hk]

/-! ### Bytes without an end -/

/-- The bytes `s` are at the address `p`. -/
def Starts (m : Memory) (p : ℕ) : List UInt8 → Prop
  | [] => True
  | c :: s => m p = c ∧ Starts m (p + 1) s

theorem Holds.starts (hs : Holds m p s) : Starts m p s := by
  induction s generalizing p with
  | nil => trivial
  | cons c s ih => exact ⟨hs.1, ih hs.2.2⟩

theorem Starts.congr (hs : Starts m p s) (h : ∀ i, i < p + s.length → m' i = m i) :
    Starts m' p s := by
  induction s generalizing p with
  | nil => trivial
  | cons c s ih =>
    rw [length_cons] at h
    exact ⟨(h p (by omega)).trans hs.1, ih hs.2 fun i hi => h i (by omega)⟩

/-- The string at an address starts with the bytes that are there. -/
theorem isPrefix_of_starts (hs : Starts m p s) (hz : ∀ c ∈ s, c ≠ 0) (ht : Holds m p t) :
    s <+: t := by
  induction s generalizing p t with
  | nil => exact nil_prefix
  | cons c s ih =>
    obtain ⟨hc, hz⟩ := forall_mem_cons.mp hz
    cases t with
    | nil => exact absurd (hs.1.symm.trans ht) hc
    | cons b t =>
      obtain rfl : c = b := hs.1.symm.trans ht.1
      exact cons_prefix_cons.mpr ⟨rfl, ih hs.2 hz ht.2.2⟩

end CString
