import AthenX.Strings.TwoLibraries

/-!
# `itoa`

`itoa` of `libk/string.c` writes the digits of a number from the last one to the first and turns
them round in place. A minus comes in front, and the number behind it is the negated one modulo
`2 ^ 32`, so that the most negative number is written as well. `atoi` of the same file reads the
text back.
-/

namespace AthenX.Strings.Libk

open CString List Function

/-! ### The source -/

/-- The character for a remainder. -/
def digitChar (remainder : UInt32) : UInt8 :=
  if remainder < 10 then (remainder + 48).toUInt8 else (remainder + 97 - 10).toUInt8

/-- The loop over the digits; the memory and `p` at its end. -/
def divide (divisor : UInt32) : ℕ → Memory → ℕ → UInt32 → Option (Memory × ℕ)
  | 0, _, _, _ => none
  | k + 1, m, p, ud =>
      let m := update m p (digitChar (ud % divisor))
      if ud / divisor ≠ 0 then divide divisor k m (p + 1) (ud / divisor) else some (m, p + 1)

/-- The loop that reverses the digits. -/
def turn : ℕ → Memory → ℕ → ℕ → Option Memory
  | 0, _, _, _ => none
  | k + 1, m, p1, p2 =>
      if p1 < p2 then turn k (update (update m p1 (m p2)) p2 (m p1)) (p1 + 1) (p2 - 1) else some m

/-- `itoa`. -/
def itoa (fuel : ℕ) (m : Memory) (buf : ℕ) (base d : Int32) : Option Memory := do
  -- 'd', '-' and 'x'
  let minus := base = 100 ∧ d < 0
  let m := if minus then update m buf 45 else m
  let buf := if minus then buf + 1 else buf
  let ud := if minus then (-d).toUInt32 else d.toUInt32
  let divisor := if ¬minus ∧ base = 120 then 16 else 10
  let (m, p) ← divide divisor fuel m buf ud
  turn fuel (update m p 0) buf (p - 1)

/-! ### The two loops -/

variable {m : Memory} {p p1 p2 k n : ℕ} {u ud : UInt32}

theorem isdigit_digitChar (h : u < 10) :
    isdigit (digitChar u) = true ∧ (digitChar u).toNat - 48 = u.toNat := by
  have hlt : u.toNat < 10 := h
  have hchar : (digitChar u).toNat = u.toNat + 48 := by
    rw [digitChar, if_pos h, UInt32.toNat_toUInt8, UInt32.toNat_add]
    simp only [UInt32.reduceToNat]
    omega
  exact ⟨isdigit_iff.mpr (by omega), by omega⟩

/-- **The digits**, the last one first. -/
theorem divide_eq_some (hk : n ≤ k) (hn : 0 < n) (hud : ud.toNat < 10 ^ n) :
    ∃ ds : List UInt8, divide 10 k m p ud = some (poke m p ds, p + ds.length) ∧ ds ≠ [] ∧
      ds.length ≤ n ∧ (∀ c ∈ ds, isdigit c = true) ∧
      Numeral.valueFrom 0 ds.reverse = ud.toNat := by
  induction n generalizing k m p ud with
  | zero => exact absurd hn (Nat.lt_irrefl 0)
  | succ n ih =>
    obtain ⟨k, rfl⟩ : ∃ j, k = j + 1 := ⟨k - 1, by omega⟩
    have hdiv : (ud / 10).toNat = ud.toNat / 10 := UInt32.toNat_div ud 10
    have hmod : (ud % 10).toNat = ud.toNat % 10 := UInt32.toNat_mod ud 10
    obtain ⟨hdigit, hvalue⟩ := isdigit_digitChar (u := ud % 10)
      (UInt32.lt_iff_toNat_lt.mpr (hmod ▸ Nat.mod_lt _ (by decide)))
    rw [divide]
    split
    · next hmore =>
      have hpos : (ud / 10).toNat ≠ 0 := fun h => hmore (UInt32.toNat_inj.mp h)
      have hlt : (ud / 10).toNat < 10 ^ n := by
        rw [Nat.pow_succ] at hud
        omega
      have hn : 0 < n := Nat.pos_of_ne_zero fun h => by
        rw [h] at hlt
        omega
      obtain ⟨ds, hrun, -, hlen, hds, hval⟩ := ih (k := k)
        (m := update m p (digitChar (ud % 10))) (p := p + 1) (by omega) hn hlt
      refine ⟨digitChar (ud % 10) :: ds, ?_, cons_ne_nil _ _, Nat.succ_le_succ hlen,
        forall_mem_cons.mpr ⟨hdigit, hds⟩, ?_⟩
      · rw [hrun, length_cons, Nat.add_assoc, Nat.add_comm 1]
        rfl
      · rw [reverse_cons, Numeral.valueFrom, foldl_append]
        change 10 * Numeral.valueFrom 0 ds.reverse + _ = _
        omega
    · next hlast =>
      have hzero : (ud / 10).toNat = 0 := by
        rw [not_not.mp hlast]
        rfl
      refine ⟨[digitChar (ud % 10)], rfl, cons_ne_nil _ _, n.succ_pos, by simpa using hdigit, ?_⟩
      rw [reverse_singleton, valueFrom_cons, valueFrom_nil]
      omega

/-- **The reversal** of the bytes from `p1` to `p2`. -/
theorem turn_eq_some (hk : 0 < k) (hle : p2 < p1 + k) :
    turn k m p1 p2 = some fun a => if p1 ≤ a ∧ a ≤ p2 then m (p1 + p2 - a) else m a := by
  induction k generalizing m p1 p2 with
  | zero => exact absurd hk (Nat.lt_irrefl 0)
  | succ k ih =>
    rw [turn]
    split
    · next hlt =>
      rw [ih (by omega) (by omega)]
      refine congrArg some (funext fun a => ?_)
      have hsum : p1 + 1 + (p2 - 1) - a = p1 + p2 - a := by omega
      rw [hsum]
      by_cases h1 : a = p1
      · rw [if_neg (by omega), if_pos (by omega), h1, update_of_ne (by omega), update_self,
          Nat.add_sub_cancel_left]
      · by_cases h2 : a = p2
        · rw [if_neg (by omega), if_pos (by omega), h2, update_self, Nat.add_sub_cancel]
        · by_cases hin : p1 ≤ a ∧ a ≤ p2
          · rw [if_pos (by omega), if_pos hin, update_of_ne (by omega), update_of_ne (by omega)]
          · rw [if_neg (by omega), if_neg hin, update_of_ne h2, update_of_ne h1]
    · next hge =>
      refine congrArg some (funext fun a => ?_)
      split
      · next ha => rw [show p1 + p2 - a = a by omega]
      · rfl

/-- **The two loops** write the digits of a number. -/
theorem divide_turn (fuel : ℕ) (m : Memory) (buf : ℕ) (ud : UInt32) :
    ∃ m1 m' p ds, divide 10 (fuel + 10) m buf ud = some (m1, p) ∧
      turn (fuel + 10) (update m1 p 0) buf (p - 1) = some m' ∧ Holds m' buf ds ∧
      ds.length ≤ 10 ∧ (∀ c ∈ ds, isdigit c = true) ∧ Numeral.valueFrom 0 ds = ud.toNat ∧
      ∀ a, a < buf ∨ buf + 10 < a → m' a = m a := by
  obtain ⟨ds, hdivide, hne, hlen, hds, hvalue⟩ := divide_eq_some (m := m) (p := buf)
    (show 10 ≤ fuel + 10 by omega) (by decide) (Nat.lt_trans ud.toNat_lt (by decide))
  have hpos := length_pos_iff.mpr hne
  refine ⟨_, _, _, ds.reverse, hdivide, turn_eq_some (by omega) (by omega), ?_, by simpa using hlen,
    fun c hc => hds c (mem_reverse.mp hc), hvalue, fun a ha => ?_⟩
  · refine holds_of_getElem (fun i hi => ?_) (fun c hc => ?_) ?_
    · rw [length_reverse] at hi
      rw [if_pos (by omega), update_of_ne (by omega), getElem_reverse,
        show buf + (buf + ds.length - 1) - (buf + i) = buf + (ds.length - 1 - i) by omega,
        poke_getElem (by omega)]
    · rintro rfl
      exact absurd (hds 0 (mem_reverse.mp hc)) (by decide)
    · rw [length_reverse, if_neg (by omega), update_self]
  · rw [if_neg (by omega), update_of_ne (by omega)]
    rcases ha with ha | ha
    · exact poke_of_lt ha
    · exact poke_of_le (by omega)

/-- **`atoi` reads what `itoa` writes**, which is at most twelve bytes. -/
theorem atoi_itoa (fuel : ℕ) (m : Memory) (buf : ℕ) (d : Int32) :
    ∃ m' s, itoa (fuel + 10) m buf 100 d = some m' ∧ Holds m' buf s ∧ atoi s = d ∧
      s.length + 1 ≤ 12 ∧ ∀ a, a < buf ∨ buf + 12 ≤ a → m' a = m a := by
  by_cases hd : d < 0
  · obtain ⟨m1, m', p, ds, hdivide, hturn, hds, hlen, hdigit, hvalue, hframe⟩ :=
      divide_turn fuel (update m buf 45) (buf + 1) (-d).toUInt32
    refine ⟨m', 45 :: ds, ?_, ⟨?_, by decide, hds⟩, ?_, Nat.succ_le_succ (Nat.succ_le_succ hlen),
      fun a ha => ?_⟩
    · simp only [itoa, hd, and_self, if_true, not_true, false_and, if_false, hdivide,
        Option.bind_eq_bind, Option.bind_some, hturn]
    · rw [hframe buf (by omega), update_self]
    · let x : Numeral := ⟨[], some true, ds, by simp, hdigit⟩
      have hsign : x.Negative := rfl
      have hatoi := libk_atoi x
      rw [Numeral.value, hvalue, UInt32.ofNat_toNat, signWord_of_negative hsign,
        Int32.toUInt32_neg] at hatoi
      have hback := hatoi.trans ((UInt32.neg_mul_neg _ 1).trans (UInt32.mul_one _))
      exact congrArg UInt32.toInt32 hback
    · rw [hframe a (by omega), update_of_ne (by omega)]
  · obtain ⟨m1, m', p, ds, hdivide, hturn, hds, hlen, hdigit, hvalue, hframe⟩ :=
      divide_turn fuel m buf d.toUInt32
    refine ⟨m', ds, ?_, hds, ?_, by omega, fun a ha => hframe a (by omega)⟩
    · have hbase : (100 : Int32) ≠ 120 := by decide
      simp only [itoa, hd, hbase, and_false, if_false, hdivide, Option.bind_eq_bind,
        Option.bind_some, hturn]
    · let x : Numeral := ⟨[], none, ds, by simp, hdigit⟩
      have hsign : ¬x.Negative := Option.some_ne_none true ∘ Eq.symm
      have hatoi := libk_atoi x
      rw [Numeral.value, hvalue, UInt32.ofNat_toNat, signWord_of_not hsign, UInt32.mul_one] at hatoi
      exact congrArg UInt32.toInt32 hatoi

end AthenX.Strings.Libk
