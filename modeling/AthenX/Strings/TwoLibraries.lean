import AthenX.Lib.CString

/-!
# The string functions of the two libraries

The kernel is linked with `libk`, user programs are linked with `libc`, and each has its own
`memcmp`, `strncmp` and `atoi`.

* `memcmp` of `libc` answers the question whether the bytes are equal, with one for yes;
* `strncmp` of `libc` does not stop at the end of the strings;
* `atoi` of `libc` skips blanks only, and stays at the largest or smallest number where that of
  `libk` wraps.
-/

namespace AthenX.Strings

open CString List UInt32

/-! ### Comparing bytes -/

namespace Libc

/-- `memcmp` of `libc/string.c`. -/
def memcmp (m : Memory) : ℕ → ℕ → ℕ → ℤ
  | _, _, 0 => 1
  | s1, s2, n + 1 => if m s1 ≠ m s2 then 0 else memcmp m (s1 + 1) (s2 + 1) n

/-- `strncmp` of `libc/string.c`. -/
def strncmp (m : Memory) : ℕ → ℕ → ℕ → ℤ
  | _, _, 0 => 0
  | s1, s2, n + 1 =>
      if m s1 ≠ m s2 then (m s1).toNat - (m s2).toNat else strncmp m (s1 + 1) (s2 + 1) n

end Libc

namespace Libk

/-- `memcmp` of `libk/string.c`. -/
def memcmp (m : Memory) : ℕ → ℕ → ℕ → ℤ
  | _, _, 0 => 0
  | s1, s2, count + 1 =>
      if m s1 ≠ m s2 then (if m s1 < m s2 then -1 else 1)
      else memcmp m (s1 + 1) (s2 + 1) count

/-- `strncmp` of `libk/string.c`. -/
def strncmp (m : Memory) : ℕ → ℕ → ℕ → ℤ
  | _, _, 0 => 0
  | s1, s2, n + 1 =>
      if m s1 ≠ m s2 then (m s1).toNat - (m s2).toNat
      else if m s1 = 0 then 0
      else strncmp m (s1 + 1) (s2 + 1) n

end Libk

/-! ### Reading a number -/

/-- `isdigit` of `ctypes.c`. -/
def isdigit (c : UInt8) : Bool := 48 ≤ c && c ≤ 57

namespace Libc

/-- The loop over the digits, and the result. -/
def number (sign : UInt32) : UInt32 → List UInt8 → UInt32
  | base, [] => base * sign
  | base, c :: s =>
      if isdigit c then
        -- `INT_MAX / 10`
        if 214748364 < base ∨ base = 214748364 ∧ 7 < c - 48 then
          if sign = 1 then 0x7FFFFFFF else 0x80000000
        else number sign (10 * base + (c - 48).toUInt32) s
      else base * sign

/-- `atoi` of `libc/string.c`, on the bytes of a string. -/
def atoi (str : List UInt8) : UInt32 :=
  let s := str.dropWhile (· == 32)
  if s.head? = some 45 ∨ s.head? = some 43 then
    number (1 - 2 * if s.head? = some 45 then 1 else 0) 0 s.tail
  else number 1 0 s

end Libc

namespace Libk

/-- The loop over the digits; the machine's arithmetic wraps. -/
def number : Int32 → List UInt8 → Int32
  | n, [] => n
  | n, c :: s => if isdigit c then number (10 * n + (c.toUInt32.toInt32 - 48)) s else n

/-- `atoi` of `libk/string.c`, on the bytes of a string. -/
def atoi (s : List UInt8) : Int32 :=
  let s := s.dropWhile isspace
  let sign : Int32 := if s.head? = some 45 then -1 else 1
  sign * number 0 (if s.head? = some 43 ∨ s.head? = some 45 then s.tail else s)

end Libk

/-- Digits with optional white space and an optional sign in front of them. -/
structure Numeral where
  space : List UInt8
  /-- A minus or a plus. -/
  sign : Option Bool
  digits : List UInt8
  space_isspace : ∀ c ∈ space, isspace c = true
  digits_isdigit : ∀ c ∈ digits, isdigit c = true

namespace Numeral

/-- The bytes of a sign. -/
def signText : Option Bool → List UInt8
  | none => []
  | some true => [45]
  | some false => [43]

/-- The bytes of a numeral. -/
def text (x : Numeral) : List UInt8 := x.space ++ (signText x.sign ++ x.digits)

/-- The number that digits denote, behind those of `n`. -/
def valueFrom (n : ℕ) (s : List UInt8) : ℕ := s.foldl (fun n c => 10 * n + (c.toNat - 48)) n

/-- The number without its sign. -/
def value (x : Numeral) : ℕ := valueFrom 0 x.digits

/-- Is there a minus? -/
def Negative (x : Numeral) : Prop := x.sign = some true

instance (x : Numeral) : Decidable x.Negative := inferInstanceAs (Decidable (_ = _))

end Numeral

/-! ### Calls -/

/-- A call of one of the functions. -/
inductive Call where
  | memcmp (m : Memory) (s1 s2 n : ℕ)
  | strncmp (m : Memory) (s1 s2 n : ℕ)
  | atoi (x : Numeral)

/-- Both answers are zero or of one sign, or the same 32 bits. -/
def Call.Agree : Call → Prop
  | memcmp m s1 s2 n => (Libc.memcmp m s1 s2 n).sign = (Libk.memcmp m s1 s2 n).sign
  | strncmp m s1 s2 n => (Libc.strncmp m s1 s2 n).sign = (Libk.strncmp m s1 s2 n).sign
  | atoi x => Libc.atoi x.text = (Libk.atoi x.text).toUInt32

/-- The first difference is at position `i`. -/
def FirstDiff (m : Memory) (s1 s2 i : ℕ) : Prop :=
  (∀ j < i, m (s1 + j) = m (s2 + j)) ∧ m (s1 + i) ≠ m (s2 + i)

/-- What the two conversions make of a number alike. -/
def Numeral.Plain (x : Numeral) : Prop :=
  if ∀ c ∈ x.space, c = 32 then
    x.value < 2 ^ 31 ∨ x.value % 2 ^ 32 = if x.Negative then 2 ^ 31 else 2 ^ 31 - 1
  else x.value % 2 ^ 32 = 0

/-- No `memcmp`; no `strncmp` of strings that end before the bytes differ; no `atoi` of a number too
large, or behind a tab. -/
def Call.Harmless : Call → Prop
  | memcmp _ _ _ _ => False
  | strncmp m s1 s2 n => ∀ i < n, FirstDiff m s1 s2 i → ∀ j < i, m (s1 + j) ≠ 0
  | atoi x => x.Plain

section

variable {m : Memory} {p q n i : ℕ}

/-! ### The comparisons -/

/-- The two `memcmp` say the opposite. -/
theorem memcmp_opposite : ∀ {n p q : ℕ}, Libc.memcmp m p q n = 1 ∧ Libk.memcmp m p q n = 0 ∨
    Libc.memcmp m p q n = 0 ∧ Libk.memcmp m p q n ≠ 0 := by
  intro n
  induction n with
  | zero => exact .inl ⟨rfl, rfl⟩
  | succ n ih =>
    intro p q
    rw [Libc.memcmp, Libk.memcmp]
    by_cases h : m p = m q
    · rw [if_neg (not_not.mpr h), if_neg (not_not.mpr h)]
      exact ih
    · rw [if_pos h, if_pos h]
      split <;> decide

theorem firstDiff_zero : FirstDiff m p q 0 ↔ m p ≠ m q :=
  and_iff_right fun j hj => absurd hj (Nat.not_lt_zero j)

theorem firstDiff_succ (h : m p = m q) :
    FirstDiff m p q (i + 1) ↔ FirstDiff m (p + 1) (q + 1) i := by
  have hshift : ∀ r j : ℕ, r + (j + 1) = r + 1 + j := fun r j => by omega
  rw [FirstDiff, hshift p i, hshift q i]
  refine and_congr_left fun _ => ?_
  constructor
  · intro hall j hj
    rw [← hshift, ← hshift]
    exact hall (j + 1) (by omega)
  · intro hall j hj
    cases j with
    | zero => exact h
    | succ j =>
      rw [hshift p j, hshift q j]
      exact hall j (by omega)

theorem libc_strncmp_eq_zero_iff : ∀ {n p q : ℕ},
    Libc.strncmp m p q n = 0 ↔ ∀ i < n, ¬FirstDiff m p q i := by
  intro n
  induction n with
  | zero => exact fun {p q} => iff_of_true rfl fun i hi => absurd hi (Nat.not_lt_zero i)
  | succ n ih =>
    intro p q
    rw [Libc.strncmp]
    by_cases h : m p = m q
    · rw [if_neg (not_not.mpr h), ih]
      constructor
      · intro hno i hi
        cases i with
        | zero => exact fun hd => firstDiff_zero.mp hd h
        | succ i => exact fun hd => hno i (by omega) ((firstDiff_succ h).mp hd)
      · exact fun hno i hi hd => hno (i + 1) (by omega) ((firstDiff_succ h).mpr hd)
    · rw [if_pos h]
      refine iff_of_false (fun hzero => h ?_) fun hno => hno 0 (by omega) (firstDiff_zero.mpr h)
      exact UInt8.toNat_inj.mp (by omega)

theorem strncmp_agree_iff : ∀ {n p q : ℕ},
    (Libc.strncmp m p q n).sign = (Libk.strncmp m p q n).sign ↔
      ∀ i < n, FirstDiff m p q i → ∀ j < i, m (p + j) ≠ 0 := by
  intro n
  induction n with
  | zero => exact fun {p q} => iff_of_true rfl fun i hi => absurd hi (Nat.not_lt_zero i)
  | succ n ih =>
    intro p q
    by_cases h : m p = m q
    · by_cases hz : m p = 0
      · -- `libk` stops here
        have hstop : Libk.strncmp m p q (n + 1) = 0 := by
          rw [Libk.strncmp, if_neg (not_not.mpr h), if_pos hz]
        rw [hstop, Int.sign_zero, Int.sign_eq_zero_iff_zero, libc_strncmp_eq_zero_iff]
        refine forall₂_congr fun i hi => ⟨fun hno hd => absurd hd hno, fun hall hd => ?_⟩
        cases i with
        | zero => exact firstDiff_zero.mp hd h
        | succ i => exact hall hd 0 (by omega) hz
      · rw [Libc.strncmp, Libk.strncmp, if_neg (not_not.mpr h), if_neg (not_not.mpr h), if_neg hz,
          ih]
        constructor
        · intro hall i hi hd j hj
          cases i with
          | zero => exact absurd hj (Nat.not_lt_zero j)
          | succ i =>
            cases j with
            | zero => exact hz
            | succ j =>
              rw [show p + (j + 1) = p + 1 + j by omega]
              exact hall i (by omega) ((firstDiff_succ h).mp hd) j (by omega)
        · intro hall i hi hd j hj
          rw [show p + 1 + j = p + (j + 1) by omega]
          exact hall (i + 1) (by omega) ((firstDiff_succ h).mpr hd) (j + 1) (by omega)
    · rw [Libc.strncmp, Libk.strncmp, if_pos h, if_pos h]
      refine iff_of_true rfl fun i _ hd j hj => ?_
      exact absurd (hd.1 0 (by omega)) h

end

/-! ### The conversions -/

section

variable {c : UInt8} {s : List UInt8} {x : Numeral}

theorem isdigit_iff : isdigit c = true ↔ 48 ≤ c.toNat ∧ c.toNat ≤ 57 := by
  rw [isdigit, Bool.and_eq_true, decide_eq_true_iff, decide_eq_true_iff]
  rfl

theorem toNat_digit (hc : isdigit c = true) : (c - 48).toNat = c.toNat - 48 :=
  UInt8.toNat_sub_of_le _ _ (UInt8.le_iff_toNat_le.mpr (isdigit_iff.mp hc).1)

@[simp] theorem valueFrom_nil (n : ℕ) : Numeral.valueFrom n [] = n := rfl

@[simp] theorem valueFrom_cons (n : ℕ) (c : UInt8) (s : List UInt8) :
    Numeral.valueFrom n (c :: s) = Numeral.valueFrom (10 * n + (c.toNat - 48)) s := by
  rw [Numeral.valueFrom, Numeral.valueFrom, List.foldl_cons]

theorem le_valueFrom (s : List UInt8) (n : ℕ) : n ≤ Numeral.valueFrom n s := by
  induction s generalizing n with
  | nil => exact Nat.le_refl n
  | cons c s ih =>
    rw [valueFrom_cons]
    exact Nat.le_trans (by omega) (ih _)

/-- The loop of `libc` gives the value if it fits into an `int`. -/
theorem libc_number (sign : UInt32) (hs : ∀ c ∈ s, isdigit c = true) {n : ℕ} (hn : n < 2 ^ 31) :
    Libc.number sign (UInt32.ofNat n) s =
      if Numeral.valueFrom n s < 2 ^ 31 then UInt32.ofNat (Numeral.valueFrom n s) * sign
      else if sign = 1 then 0x7FFFFFFF else 0x80000000 := by
  induction s generalizing n with
  | nil => rw [Libc.number, valueFrom_nil, if_pos hn]
  | cons c s ih =>
    obtain ⟨hc, hs⟩ := forall_mem_cons.mp hs
    have hdigit := isdigit_iff.mp hc
    have htoNat : (UInt32.ofNat n).toNat = n :=
      toNat_ofNat_of_lt (Nat.lt_of_lt_of_le hn (by decide))
    have hover : (214748364 < UInt32.ofNat n ∨ UInt32.ofNat n = 214748364 ∧ 7 < c - 48) ↔
        2 ^ 31 ≤ 10 * n + (c.toNat - 48) := by
      rw [UInt32.lt_iff_toNat_lt, ← UInt32.toNat_inj, UInt8.lt_iff_toNat_lt, toNat_digit hc]
      simp only [UInt32.reduceToNat, UInt8.reduceToNat]
      omega
    rw [Libc.number, if_pos hc, valueFrom_cons]
    by_cases h : 2 ^ 31 ≤ 10 * n + (c.toNat - 48)
    · have hle := le_valueFrom s (10 * n + (c.toNat - 48))
      have hlarge : ¬Numeral.valueFrom (10 * n + (c.toNat - 48)) s < 2 ^ 31 := by omega
      rw [if_pos (hover.mpr h), if_neg hlarge]
    · rw [if_neg (mt hover.mp h), ← ih hs (by omega)]
      rw [UInt32.ofNat_add, UInt32.ofNat_mul, ← toNat_digit hc, UInt32.ofNat_uInt8ToNat]
      rfl

/-- The loop of `libk` gives the value modulo `2 ^ 32`. -/
theorem libk_number (hs : ∀ c ∈ s, isdigit c = true) (n : ℕ) :
    (Libk.number (UInt32.ofNat n).toInt32 s).toUInt32 = UInt32.ofNat (Numeral.valueFrom n s) := by
  induction s generalizing n with
  | nil => rfl
  | cons c s ih =>
    obtain ⟨hc, hs⟩ := forall_mem_cons.mp hs
    have hdigit : c.toUInt32 - 48 = UInt32.ofNat (c.toNat - 48) := by
      rw [UInt32.ofNat_sub (isdigit_iff.mp hc).1, UInt32.ofNat_uInt8ToNat]
      rfl
    rw [Libk.number, if_pos hc, valueFrom_cons, ← ih hs, UInt32.ofNat_add, UInt32.ofNat_mul,
      ← hdigit]
    rfl

/-! ### Numerals -/

theorem isspace_of_isdigit (hc : isdigit c = true) : isspace c = false :=
  isspace_eq_false hc (by simp [isdigit])

theorem head?_digits_ne (hs : ∀ c ∈ s, isdigit c = true) (hc : isdigit c = false) :
    s.head? ≠ some c := fun h => by
  rw [hs c (mem_of_mem_head? h)] at hc
  cases hc

theorem isspace_head (x : Numeral) (hc : (Numeral.signText x.sign ++ x.digits).head? = some c) :
    isspace c = false := by
  rcases hsign : x.sign with _ | _ | _ <;> rw [hsign] at hc
  · exact isspace_of_isdigit (x.digits_isdigit c (mem_of_mem_head? hc))
  · obtain rfl : 43 = c := Option.some.inj hc
    rfl
  · obtain rfl : 45 = c := Option.some.inj hc
    rfl

theorem dropWhile_text {p : UInt8 → Bool} (hp : ∀ c ∈ x.space, p c = true)
    (himp : ∀ c, p c = true → isspace c = true) :
    x.text.dropWhile p = Numeral.signText x.sign ++ x.digits := by
  rw [Numeral.text, dropWhile_append_of_pos hp, dropWhile_eq_self_iff]
  intro hl hc
  have hspace := isspace_head x (List.head?_eq_getElem?.trans (List.getElem?_eq_getElem hl))
  rw [himp _ hc] at hspace
  cases hspace

/-- The sign as a factor. -/
def signWord (x : Numeral) : UInt32 := if x.Negative then 0xFFFFFFFF else 1

theorem signWord_of_negative (hx : x.Negative) : signWord x = 0xFFFFFFFF := if_pos hx

theorem signWord_of_not (hx : ¬x.Negative) : signWord x = 1 := if_neg hx

/-- `libk` gives the value modulo `2 ^ 32`. -/
theorem libk_atoi (x : Numeral) :
    (Libk.atoi x.text).toUInt32 = UInt32.ofNat x.value * signWord x := by
  rw [Libk.atoi, dropWhile_text x.space_isspace fun c hc => hc, Numeral.value,
    ← libk_number x.digits_isdigit 0, UInt32.mul_comm]
  rcases hsign : x.sign with _ | _ | _
  · have hminus := head?_digits_ne x.digits_isdigit (c := 45) rfl
    have hplus := head?_digits_ne x.digits_isdigit (c := 43) rfl
    rw [signWord_of_not fun h => nomatch hsign.symm.trans h]
    simp only [Numeral.signText, nil_append, hminus, hplus]
    exact Int32.toUInt32_mul _ _
  · rw [signWord_of_not fun h => nomatch hsign.symm.trans h]
    exact Int32.toUInt32_mul _ _
  · rw [signWord_of_negative hsign]
    exact Int32.toUInt32_mul _ _

/-- Behind blanks `libc` gives the value if it fits into an `int`. -/
theorem libc_atoi (hs : ∀ c ∈ x.space, c = 32) :
    Libc.atoi x.text = if x.value < 2 ^ 31 then UInt32.ofNat x.value * signWord x
      else if signWord x = 1 then 0x7FFFFFFF else 0x80000000 := by
  have hdrop : x.text.dropWhile (· == 32) = Numeral.signText x.sign ++ x.digits :=
    dropWhile_text (fun c hc => beq_iff_eq.mpr (hs c hc)) fun c hc => by
      rw [beq_iff_eq.mp hc]
      rfl
  rw [Libc.atoi, hdrop, Numeral.value, ← libc_number (signWord x) x.digits_isdigit (by decide)]
  rcases hsign : x.sign with _ | _ | _
  · have hminus := head?_digits_ne x.digits_isdigit (c := 45) rfl
    have hplus := head?_digits_ne x.digits_isdigit (c := 43) rfl
    rw [signWord_of_not fun h => nomatch hsign.symm.trans h]
    simp only [Numeral.signText, nil_append, hminus, hplus]
    rfl
  · rw [signWord_of_not fun h => nomatch hsign.symm.trans h]
    have hhead : (Numeral.signText (some false) ++ x.digits).head? = some 43 := rfl
    rw [hhead]
    rfl
  · rw [signWord_of_negative hsign]
    rfl

theorem exists_dropWhile_blank {l r : List UInt8} (hl : ∀ c ∈ l, isspace c = true)
    (hs : ¬∀ c ∈ l, c = 32) :
    ∃ d r', (l ++ r).dropWhile (· == 32) = d :: r' ∧ isspace d = true ∧ d ≠ 32 := by
  induction l with
  | nil => exact absurd (fun c hc => nomatch hc) hs
  | cons d l ih =>
    obtain ⟨hd, hl⟩ := forall_mem_cons.mp hl
    by_cases h : d = 32
    · rw [cons_append, dropWhile_cons_of_pos (p := (· == 32)) (beq_iff_eq.mpr h)]
      exact ih hl fun hall => hs (forall_mem_cons.mpr ⟨h, hall⟩)
    · exact ⟨d, l ++ r, dropWhile_cons_of_neg (mt beq_iff_eq.mp h), hd, h⟩

theorem libc_atoi_of_space (hs : ¬∀ c ∈ x.space, c = 32) : Libc.atoi x.text = 0 := by
  obtain ⟨d, r, hdrop, hd, -⟩ := exists_dropWhile_blank x.space_isspace hs
  have hdigit : isdigit d = false := by
    by_contra h
    rw [isspace_of_isdigit (by simpa using h)] at hd
    cases hd
  rw [Libc.atoi, Numeral.text, hdrop, if_neg, Libc.number, hdigit]
  · rfl
  · rintro (h | h) <;> cases h <;> cases hd

/-- **The conversions agree** on what fits into an `int` behind blanks. -/
theorem atoi_agree_iff (x : Numeral) :
    Libc.atoi x.text = (Libk.atoi x.text).toUInt32 ↔ x.Plain := by
  rw [libk_atoi, Numeral.Plain]
  by_cases hs : ∀ c ∈ x.space, c = 32
  · rw [libc_atoi hs, if_pos hs]
    by_cases hv : x.value < 2 ^ 31
    · rw [if_pos hv]
      exact iff_of_true rfl (.inl hv)
    · rw [if_neg hv]
      by_cases hx : x.Negative
      · rw [signWord_of_negative hx, if_pos hx, if_neg (by decide), ← UInt32.toNat_inj,
          UInt32.toNat_mul, UInt32.toNat_ofNat']
        simp only [UInt32.reduceToNat]
        omega
      · rw [signWord_of_not hx, if_neg hx, if_pos rfl, UInt32.mul_one, ← UInt32.toNat_inj,
          toNat_ofNat']
        simp only [UInt32.reduceToNat]
        omega
  · rw [libc_atoi_of_space hs, if_neg hs, ← UInt32.toNat_inj, UInt32.toNat_mul, toNat_ofNat']
    by_cases hx : x.Negative
    · rw [signWord_of_negative hx]
      simp only [UInt32.reduceToNat]
      omega
    · rw [signWord_of_not hx]
      simp only [UInt32.reduceToNat]
      omega

/-! ### The libraries -/

/-- **The two libraries agree on a call exactly if it is harmless**; no call of `memcmp` is. -/
theorem agree_iff (c : Call) : c.Agree ↔ c.Harmless := by
  cases c with
  | memcmp m s1 s2 n =>
    refine iff_of_false (fun hsign => ?_) id
    rw [Call.Agree] at hsign
    rcases memcmp_opposite with ⟨hc, hk⟩ | ⟨hc, hk⟩
    · rw [hc, hk] at hsign
      cases hsign
    · rw [hc] at hsign
      exact hk (Int.sign_eq_zero_iff_zero.mp hsign.symm)
  | strncmp m s1 s2 n => exact strncmp_agree_iff
  | atoi x => exact atoi_agree_iff x

end

/-- Equal bytes, equal strings with other bytes behind them, and a number behind a tab. -/
theorem not_agree_samples :
    ¬(Call.memcmp (fun _ => 0) 0 1 1).Agree ∧
    ¬(Call.strncmp (fun p => if p = 5 then 1 else 0) 0 4 2).Agree ∧
    ¬(Call.atoi ⟨[9], none, [49], List.forall_mem_singleton.mpr rfl,
      List.forall_mem_singleton.mpr rfl⟩).Agree := by
  refine ⟨?_, ?_, ?_⟩ <;> rw [Call.Agree] <;> decide

end AthenX.Strings
